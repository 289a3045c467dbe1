import Std.Data.TreeMap
import Stratagem.ClassFile.Constant
import Stratagem.ClassFile.Error

/-
  The constant pool of a class file.

  Index zero stands for nothing, and so does the index behind
  an entry of eight bytes.  Adding a constant that is there
  already gives its index.

  Key definitions include:
    * `ConstantPool`
    * `ConstantPool.get?`
    * `Pooling`
    * `Pooling.add`
    * `ConstantPool.memberAt?`
    * `ConstantPool.describe`
    * `ConstantPool.encode`
    * `Decoder.pool`
-/

namespace Stratagem

------------------------------------------------------------
-- Pools
------------------------------------------------------------

/- Entries by index, and the index of each constant. -/
structure ConstantPool where
  entries : Array (Option Constant) := #[none]
  index : Std.TreeMap Constant UInt16 (compareOn Constant.key) := {}

/- A member reference with its names. -/
structure MemberRef where
  kind : MemberKind
  owner : String
  name : String
  descriptor : String

namespace ConstantPool

/- One more than the last index, as a sixteen-bit number. -/
def count
    (p : ConstantPool) : UInt16 :=
  UInt16.ofNat p.entries.size

/- The constant at an index. -/
def get?
    (p : ConstantPool)
    (i : UInt16) : Option Constant :=
  p.entries[i.toNat]?.join

/- The constants in order. -/
def constants
    (p : ConstantPool) : List Constant :=
  p.entries.toList.filterMap id

/-
  Put a constant behind the last entry.  The index of an
  equal constant stays the first one.
-/
def append
    (p : ConstantPool)
    (c : Constant) : ConstantPool :=
  let i := UInt16.ofNat p.entries.size
  let entries := p.entries.push (some c)
  { entries := if c.isWide then entries.push none else entries
    index := p.index.insertIfNew c i }

end ConstantPool

------------------------------------------------------------
-- Adding Constants
------------------------------------------------------------

/-
  A step that adds to a pool.  What was added before a
  failure stays.
-/
abbrev Pooling :=
  ExceptT ClassFileError (StateM ConstantPool)

namespace Pooling

/- The index of a constant, which is added if it is new. -/
def add
    (c : Constant) : Pooling UInt16 := do
  let p ← get
  match p.index[c]? with
  | some i => return i
  | none =>
      if 65535 < p.entries.size + c.width then
        throw .constantPoolOverflow
      else
        let i := UInt16.ofNat p.entries.size
        set (p.append c)
        return i

/- The index of a text. -/
def text
    (s : String) : Pooling UInt16 :=
  let length := (ModifiedUtf8.encode s).length
  if 65535 < length then
    throw (.stringTooLong length)
  else
    add (.text s)

/- The index of a class. -/
def classRef
    (name : String) : Pooling UInt16 := do
  let name ← text name
  add (.classRef name)

/- The index of a string. -/
def string
    (s : String) : Pooling UInt16 := do
  let value ← text s
  add (.string value)

/- The index of a name with a descriptor. -/
def nameAndType
    (name descriptor : String) : Pooling UInt16 := do
  let name ← text name
  let descriptor ← text descriptor
  add (.nameAndType name descriptor)

/- The index of a member of a class. -/
def member
    (kind : MemberKind)
    (owner name descriptor : String) : Pooling UInt16 := do
  let owner ← classRef owner
  let pair ← nameAndType name descriptor
  add (.member kind owner pair)

end Pooling

------------------------------------------------------------
-- Looking Up
------------------------------------------------------------

namespace ConstantPool

/- The text at an index. -/
def textAt?
    (p : ConstantPool)
    (i : UInt16) : Option String :=
  match p.get? i with
  | some (.text s) => some s
  | _ => none

/- The name of the class at an index. -/
def classAt?
    (p : ConstantPool)
    (i : UInt16) : Option String :=
  match p.get? i with
  | some (.classRef name) => p.textAt? name
  | _ => none

/- The name and the descriptor at an index. -/
def nameAndTypeAt?
    (p : ConstantPool)
    (i : UInt16) : Option (String × String) :=
  match p.get? i with
  | some (.nameAndType name descriptor) => do
      let name ← p.textAt? name
      let descriptor ← p.textAt? descriptor
      return (name, descriptor)
  | _ => none

/- The member at an index. -/
def memberAt?
    (p : ConstantPool)
    (i : UInt16) : Option MemberRef :=
  match p.get? i with
  | some (.member kind owner pair) => do
      let owner ← p.classAt? owner
      let (name, descriptor) ← p.nameAndTypeAt? pair
      return { kind, owner, name, descriptor }
  | _ => none

/- What stands at an index, in words. -/
def describe
    (p : ConstantPool)
    (i : UInt16) : String :=
  match p.get? i with
  | none => s!"<invalid #{i.toNat}>"
  | some c =>
      match c with
      | .text s => s
      | .integer n => s!"int {n.toInt}"
      | .float x => s!"float {x.display}"
      | .long n => s!"long {n.toInt}"
      | .double x => s!"double {x.display}"
      | .classRef name =>
          "class " ++ (p.textAt? name).getD "?"
      | .string value =>
          "String " ++
            Text.quoted ((p.textAt? value).getD "?")
      | .nameAndType _ _ =>
          match p.nameAndTypeAt? i with
          | some (name, descriptor) => s!"{name}:{descriptor}"
          | none => "?"
      | .member _ _ _ =>
          match p.memberAt? i with
          | some m => s!"{m.owner}.{m.name}:{m.descriptor}"
          | none => "?"

------------------------------------------------------------
-- Bytes
------------------------------------------------------------

/- The bytes of a pool. -/
def encode
    (p : ConstantPool) : List UInt8 :=
  be16 p.count ++ p.constants.flatMap Constant.encode

/- Appending a constant makes a pool longer. -/
theorem size_lt_size_append
    (p : ConstantPool)
    (c : Constant) :
    p.entries.size < (p.append c).entries.size := by
  unfold append
  split <;> simp only [Array.size_push] <;> omega

end ConstantPool

namespace Decoder

/- Entries behind those already read, up to a count. -/
def poolEntries
    (count : Nat)
    (p : ConstantPool) : Decoder ConstantPool :=
  if p.entries.size < count then do
    let c ← constant
    poolEntries count (p.append c)
  else
    return p
termination_by count - p.entries.size
decreasing_by
  have := p.size_lt_size_append c
  omega

/- A constant pool. -/
def pool : Decoder ConstantPool := do
  let count ← u16
  poolEntries count.toNat {}

end Decoder

end Stratagem

import Stratagem.Bytes.Reader

/-
  Constants of a class file.

  A constant may refer to others by their index in the pool.

  Key definitions include:
    * `MemberKind`
    * `Constant`
    * `Constant.tag`
    * `Constant.width`
    * `Constant.key`
    * `Constant.encode`
    * `Decoder.constant`
-/

namespace Stratagem

------------------------------------------------------------
-- Constants
------------------------------------------------------------

/- What a member reference refers to. -/
inductive MemberKind where
  | field
  | method
  | interfaceMethod
deriving DecidableEq

/- An entry of the constant pool. -/
inductive Constant where
  | text (value : String)
  | integer (value : Int32)
  | float (value : Binary32)
  | long (value : Int64)
  | double (value : Binary64)
  | classRef (name : UInt16)
  | string (value : UInt16)
  | member (kind : MemberKind) (owner pair : UInt16)
  | nameAndType (name descriptor : UInt16)
deriving DecidableEq

namespace Constant

/- The number that marks the sort of an entry. -/
def tag : Constant → UInt8
  | .text _ => 1
  | .integer _ => 3
  | .float _ => 4
  | .long _ => 5
  | .double _ => 6
  | .classRef _ => 7
  | .string _ => 8
  | .member .field _ _ => 9
  | .member .method _ _ => 10
  | .member .interfaceMethod _ _ => 11
  | .nameAndType _ _ => 12

/- Numbers of eight bytes. -/
def isWide : Constant → Bool
  | .long _ => true
  | .double _ => true
  | _ => false

/- How many indices an entry takes. -/
def width
    (c : Constant) : Nat :=
  if c.isWide then 2 else 1

/- The parts of an entry as numbers. -/
def parts : Constant → List Nat
  | .text s => s.toList.map Char.toNat
  | .integer n => [n.toUInt32.toNat]
  | .float x => [x.bits.toNat]
  | .long n => [n.toUInt64.toNat]
  | .double x => [x.bits.toNat]
  | .classRef name => [name.toNat]
  | .string value => [value.toNat]
  | .member _ owner pair => [owner.toNat, pair.toNat]
  | .nameAndType name descriptor =>
      [name.toNat, descriptor.toNat]

/- The numbers by which an entry is found. -/
def key
    (c : Constant) : List Nat :=
  c.tag.toNat :: c.parts

/- Values of one slot that an instruction can push. -/
def isLoadable : Constant → Bool
  | .integer _ => true
  | .float _ => true
  | .string _ => true
  | .classRef _ => true
  | _ => false

------------------------------------------------------------
-- Bytes
------------------------------------------------------------

/- The bytes of an entry behind its tag. -/
def body : Constant → List UInt8
  | .text s => encodeText s
  | .integer n => be32 n.toUInt32
  | .float x => be32 x.bits
  | .long n => be64 n.toUInt64
  | .double x => be64 x.bits
  | .classRef name => be16 name
  | .string value => be16 value
  | .member _ owner pair => be16 owner ++ be16 pair
  | .nameAndType name descriptor => be16 name ++ be16 descriptor

/- The bytes of an entry. -/
def encode
    (c : Constant) : List UInt8 :=
  c.tag :: c.body

end Constant

namespace Decoder

/- A member reference behind its tag. -/
def member
    (kind : MemberKind) : Decoder Constant := do
  let owner ← u16
  let pair ← u16
  return .member kind owner pair

/- One entry. -/
def constant : Decoder Constant := do
  let offset ← position
  match ← u8 with
  | 1 => return .text (← text)
  | 3 => return .integer (← u32).toInt32
  | 4 => return .float ⟨← u32⟩
  | 5 => return .long (← u64).toInt64
  | 6 => return .double ⟨← u64⟩
  | 7 => return .classRef (← u16)
  | 8 => return .string (← u16)
  | 9 => member .field
  | 10 => member .method
  | 11 => member .interfaceMethod
  | 12 => do
      let name ← u16
      let descriptor ← u16
      return .nameAndType name descriptor
  | tag => throw (.invalidTag tag offset)

end Decoder

end Stratagem

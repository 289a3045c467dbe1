import Stratagem.ClassFile.Basic
import Stratagem.Code.Instruction
import Stratagem.Jvm.Signature
import Stratagem.Jvm.VType

/-
  Methods under construction.

  A draft holds the lines written so far, the locals, and the
  types that the slots and the stack hold at its end.  Jumps
  name labels, whose offsets are put in when the draft is
  finished.

  Key definitions include:
    * `Local`
    * `Label`
    * `Line`
    * `MethodDraft`
    * `MethodDraft.push`
    * `MethodDraft.pop`
    * `MethodDraft.write`
    * `MethodDraft.declare`
    * `MethodDraft.parameter?`
-/

namespace Stratagem

open Jvm

------------------------------------------------------------
-- Parts
------------------------------------------------------------

/- The instructions that handle values of a type. -/
def Family.ofTy : Ty → Family
  | .primitive .void => .ref
  | .primitive .long => .long
  | .primitive .float => .float
  | .primitive .double => .double
  | .primitive _ => .int
  | _ => .ref

/- A local of a draft, by its position. -/
structure Local where
  index : Nat
deriving DecidableEq

/- A jump target of a draft, by its position. -/
structure Label where
  index : Nat
deriving DecidableEq

/- A named local; it holds a value from an offset on. -/
structure LocalVar where
  name : String
  ty : Ty
  slot : Nat
  start : Option Nat := none

/-
  What the slots and the stack hold.  The head of the stack
  is its top.
-/
structure Snapshot where
  slots : Array VType
  stack : List VType

/- What is known of a label. -/
structure LabelState where
  offset : Option Nat := none
  entry : Option Snapshot := none
  targeted : Bool := false

/- An instruction, or a jump to a label. -/
inductive Line where
  | instruction (i : Instruction)
  | jump (offset : Nat) (opcode : Opcode) (label : Label)

/- A jump takes three bytes. -/
def Line.size : Line → Nat
  | .instruction i => i.size
  | .jump _ _ _ => 3

------------------------------------------------------------
-- Drafts
------------------------------------------------------------

/- The flag of methods without a receiver. -/
def staticFlag : UInt16 :=
  0x0008

/-
  A method under construction.  The first fault that does not
  stop the construction is kept until the end.  Slots are added
  up in sixteen bits, and `overflow` tells whether a sum has
  left them: then a build that checks its sums has stopped, and
  another goes on with what is left of the sum.
-/
structure MethodDraft where
  className : String
  version : UInt16
  access : UInt16
  name : String
  descriptor : String
  signature : Option String := none
  pool : ConstantPool
  lines : Array Line := #[]
  offset : Nat := 0
  locals : Array LocalVar := #[]
  slots : Array VType := #[]
  stack : List VType := []
  depth : UInt16 := 0
  maxStack : UInt16 := 0
  overflow : Bool := false
  reachable : Bool := true
  labels : Array LabelState := #[]
  fault : Option ClassFileError := none

namespace MethodDraft

/- Whether the method has no receiver. -/
def isStatic
    (m : MethodDraft) : Bool :=
  m.access &&& staticFlag != 0

/- The number of slots, as a sixteen-bit number. -/
def maxLocals
    (m : MethodDraft) : UInt16 :=
  UInt16.ofNat m.slots.size

/- The slots and the stack as they are now. -/
def snapshot
    (m : MethodDraft) : Snapshot :=
  { slots := m.slots, stack := m.stack }

/- Keep a fault, unless there is an earlier one. -/
def blame
    (m : MethodDraft)
    (e : ClassFileError) : MethodDraft :=
  { m with fault := m.fault <|> some e }

/- Note a sum of slots, which may have left its sixteen bits. -/
def addUp
    (m : MethodDraft)
    (sum : Nat) : MethodDraft :=
  { m with overflow := m.overflow || 65535 < sum }

------------------------------------------------------------
-- Stack
------------------------------------------------------------

/- Put a value on the stack. -/
def push
    (m : MethodDraft)
    (v : VType) : MethodDraft :=
  let depth := m.depth + UInt16.ofNat v.slots
  { m.addUp (m.depth.toNat + v.slots) with
    stack := v :: m.stack
    depth
    maxStack := max m.maxStack depth }

/- Take a value from the stack; an empty stack is a fault. -/
def pop
    (m : MethodDraft) : VType × MethodDraft :=
  match m.stack with
  | v :: rest =>
      (v, { m with
        stack := rest
        depth := m.depth - UInt16.ofNat v.slots })
  | [] => (.top, m.blame (.stackUnderflow m.name m.offset))

/- Take so many values from the stack. -/
def popMany
    (m : MethodDraft) : Nat → MethodDraft
  | 0 => m
  | n + 1 => popMany m.pop.2 n

/- Nothing behind the last line is reached by itself. -/
def terminate
    (m : MethodDraft) : MethodDraft :=
  { m with reachable := false, stack := [], depth := 0 }

/- Replace a type wherever the stack or a slot holds it. -/
def replace
    (m : MethodDraft)
    (old new : VType) : MethodDraft :=
  let change := fun v => if v = old then new else v
  { m with
    stack := m.stack.map change
    slots := m.slots.map change }

------------------------------------------------------------
-- Lines
------------------------------------------------------------

/- Write a line at the end. -/
def append
    (m : MethodDraft)
    (l : Line) : MethodDraft :=
  { m with
    lines := m.lines.push l
    offset := m.offset + l.size }

/- Write an instruction. -/
def write
    (m : MethodDraft)
    (opcode : Opcode)
    (operands : List UInt8) : MethodDraft :=
  m.append (.instruction { offset := m.offset, opcode, operands })

/- Write an instruction that names its slot by two bytes. -/
def writeWide
    (m : MethodDraft)
    (opcode : Opcode)
    (slot : Nat) : MethodDraft :=
  m.append (.instruction {
    offset := m.offset
    opcode
    wide := true
    operands := bigEndian 2 slot })

------------------------------------------------------------
-- Locals
------------------------------------------------------------

/- The slots of a local have numbers of sixteen bits. -/
def hasRoom
    (m : MethodDraft)
    (ty : Ty) : Bool :=
  m.slots.size + max ty.slots 1 ≤ 65535

/- Give a new local the next slots. -/
def alloc
    (m : MethodDraft)
    (name : String)
    (ty : Ty)
    (start : Option Nat)
    (holds : VType) : Local × MethodDraft :=
  let slot := m.slots.size
  let slots := m.slots.push holds
  (⟨m.locals.size⟩, { m with
    locals := m.locals.push { name, ty, slot, start }
    slots := if ty.slots = 2 then slots.push .top else slots })

/- A local that holds a value from the start, if there is room. -/
def declare
    (m : MethodDraft)
    (name : String)
    (ty : Ty)
    (holds : VType) : Except ClassFileError MethodDraft :=
  if m.hasRoom ty then
    .ok (m.alloc name ty (some 0) holds).2
  else
    .error (.localIndexOverflow m.name)

/- The local that holds the receiver. -/
def this?
    (m : MethodDraft) : Option Local :=
  if m.isStatic then none else some ⟨0⟩

/- The local that holds a parameter. -/
def parameter?
    (m : MethodDraft)
    (i : Nat) : Option Local :=
  let index := (if m.isStatic then 0 else 1) + i
  match m.locals[index]? with
  | some v => if v.start.isSome then some ⟨index⟩ else none
  | none => none

/- Give parameters their slots, from a position on. -/
def declareParams
    (m : MethodDraft)
    (names : List String)
    (position : Nat) :
    List Ty → Except ClassFileError MethodDraft
  | [] => .ok m
  | t :: ts => do
      let name := names.head?.getD s!"arg{position}"
      let m ← m.declare name t (.ofTy t)
      m.declareParams names.tail (position + 1) ts

/-
  Give the receiver its slot, if there is one.  A constructor
  gets a receiver that is not yet an object.
-/
def declareThis
    (m : MethodDraft) : Except ClassFileError MethodDraft :=
  if m.isStatic then
    .ok m
  else
    m.declare "this" (.ofClass m.className)
      (if m.name = "<init>" then .uninitThis
      else .object m.className)

end MethodDraft

end Stratagem

import Stratagem.ClassFile.Basic
import Stratagem.Code.Instruction

/-
  Checking the structure of class files.

  Every method body must decode, jump to instructions only,
  use constants of the right sort and locals in range, keep
  the depth of the stack within its bound and the same along
  every path, and never run past its end.

  Key definitions include:
    * `VerifyError`
    * `Instruction.effect?`
    * `CodeAttribute.verify`
    * `ClassFile.verify`
-/

namespace Stratagem

open Jvm

------------------------------------------------------------
-- Errors
------------------------------------------------------------

/- What is wrong with a class file. -/
inductive VerifyError where
  | invalidOpcode (byte : UInt8) (offset : Nat)
  | stackUnderflow (offset : Nat)
  | stackOverflow (offset depth : Nat) (limit : UInt16)
  | inconsistentStack (offset first second : Nat)
  | invalidJumpTarget (target : Int) (offset : Nat)
  | invalidConstantRef (index : UInt16) (offset : Nat)
  | invalidLocalRef (slot : Nat) (limit : UInt16) (offset : Nat)
  | fallOffEnd (offset : Nat)
  | malformedClass (what : String)
  | decode (e : DecodeError)
  | method (name : String) (source : VerifyError)

/- The wording of an error. -/
def VerifyError.message : VerifyError → String
  | .invalidOpcode byte offset =>
      (DecodeError.invalidOpcode byte offset).message
  | .stackUnderflow offset =>
      s!"Stack underflow at offset {offset}"
  | .stackOverflow offset depth limit =>
      s!"Stack overflow at offset {offset} (depth: {depth}, " ++
        s!"max: {limit.toNat})"
  | .inconsistentStack offset first second =>
      s!"Inconsistent stack depth at offset {offset}: " ++
        s!"{first} vs {second}"
  | .invalidJumpTarget target offset =>
      s!"Invalid jump target {target} at offset {offset}"
  | .invalidConstantRef index offset =>
      s!"Invalid constant pool reference: index " ++
        s!"{index.toNat} at offset {offset}"
  | .invalidLocalRef slot limit offset =>
      s!"Invalid local variable reference: index {slot} " ++
        s!"(max {limit.toNat}) at offset {offset}"
  | .fallOffEnd offset =>
      s!"Execution falls off end of method at offset {offset}"
  | .malformedClass what => s!"Malformed class: {what}"
  | .decode e => s!"Decode error: {e.message}"
  | .method name source =>
      s!"In method {name}: {source.message}"

------------------------------------------------------------
-- Instructions by Themselves
------------------------------------------------------------

namespace Instruction

/- Whether a constant is of the sort that an operation uses. -/
def acceptsConstant : Opcode → Constant → Bool
  | .ldc, c => c.isLoadable
  | .ldcW, c => c.isLoadable
  | .ldc2W, c => c.isWide
  | .getstatic, .member .field _ _ => true
  | .putstatic, .member .field _ _ => true
  | .getfield, .member .field _ _ => true
  | .putfield, .member .field _ _ => true
  | .invokevirtual, .member kind _ _ => kind != .field
  | .invokespecial, .member kind _ _ => kind != .field
  | .invokestatic, .member kind _ _ => kind != .field
  | .invokeinterface, .member .interfaceMethod _ _ => true
  | .new, .classRef _ => true
  | .checkcast, .classRef _ => true
  | .instanceof, .classRef _ => true
  | _, _ => false

/- The constant of an instruction, if it has one, is fit. -/
def checkConstant
    (p : ConstantPool)
    (i : Instruction) : Except VerifyError Unit :=
  match i.constant? with
  | none => .ok ()
  | some index =>
      if (p.get? index).any (acceptsConstant i.opcode) then
        .ok ()
      else
        .error (.invalidConstantRef index i.offset)

/- The local of an instruction, if it has one, is in range. -/
def checkLocal
    (limit : UInt16)
    (i : Instruction) : Except VerifyError Unit :=
  match i.slot? with
  | none => .ok ()
  | some (slot, width) =>
      if slot + width ≤ limit.toNat then
        .ok ()
      else
        .error (.invalidLocalRef slot limit i.offset)

/- Slots of the field that an instruction uses. -/
def fieldSlots?
    (p : ConstantPool)
    (i : Instruction) : Option Nat := do
  let m ← p.memberAt? (← i.constant?)
  let t ← (Ty.ofDescriptor m.descriptor).toOption
  return t.slots

/- Slots of parameters and result of a called method. -/
def callSlots?
    (p : ConstantPool)
    (i : Instruction) : Option (Nat × Nat) := do
  let m ← p.memberAt? (← i.constant?)
  let (params, result) ←
    (parseMethodDescriptor m.descriptor).toOption
  return (Ty.totalSlots params, result.slots)

/- Slots that an instruction pops and pushes. -/
def effect?
    (p : ConstantPool)
    (i : Instruction) : Option (Nat × Nat) :=
  match i.opcode with
  | .nop => some (0, 0)
  | .aconstNull => some (0, 1)
  | .iconst _ => some (0, 1)
  | .lconst _ => some (0, 2)
  | .fconst _ => some (0, 1)
  | .dconst _ => some (0, 2)
  | .bipush => some (0, 1)
  | .sipush => some (0, 1)
  | .ldc => some (0, 1)
  | .ldcW => some (0, 1)
  | .ldc2W => some (0, 2)
  | .load f => some (0, f.slots)
  | .loadShort f _ => some (0, f.slots)
  | .store f => some (f.slots, 0)
  | .storeShort f _ => some (f.slots, 0)
  | .pop => some (1, 0)
  | .pop2 => some (2, 0)
  | .dup => some (1, 2)
  | .dupX1 => some (2, 3)
  | .swap => some (2, 2)
  | .ifeq => some (1, 0)
  | .ifne => some (1, 0)
  | .ifnull => some (1, 0)
  | .ifnonnull => some (1, 0)
  | .goto => some (0, 0)
  | .returnValue f => some (f.slots, 0)
  | .returnVoid => some (0, 0)
  | .athrow => some (1, 0)
  | .new => some (0, 1)
  | .checkcast => some (1, 1)
  | .instanceof => some (1, 1)
  | .wide => some (0, 0)
  | .getstatic => (i.fieldSlots? p).map fun n => (0, n)
  | .putstatic => (i.fieldSlots? p).map fun n => (n, 0)
  | .getfield => (i.fieldSlots? p).map fun n => (1, n)
  | .putfield => (i.fieldSlots? p).map fun n => (1 + n, 0)
  | .invokestatic => i.callSlots? p
  | .invokevirtual =>
      (i.callSlots? p).map fun (n, r) => (n + 1, r)
  | .invokespecial =>
      (i.callSlots? p).map fun (n, r) => (n + 1, r)
  | .invokeinterface =>
      (i.callSlots? p).map fun (n, r) => (n + 1, r)

end Instruction

------------------------------------------------------------
-- Depth along Paths
------------------------------------------------------------

/- Instructions, and the position of each by its offset. -/
structure CodeMap where
  instructions : Array Instruction
  positions : Std.HashMap Nat Nat

namespace CodeMap

/- The map of instructions. -/
def ofList
    (is : List Instruction) : CodeMap where
  instructions := is.toArray
  positions :=
    (is.zipIdx.map fun (i, n) => (i.offset, n)).foldl
      (fun m (offset, n) => m.insert offset n) {}

/- The position of the instruction that a jump goes to. -/
def targetOf?
    (l : CodeMap)
    (i : Instruction) : Option Nat :=
  i.target?.bind fun target =>
    if 0 ≤ target then l.positions[target.toNat]? else none

/- A jump goes to an instruction. -/
def checkTarget
    (l : CodeMap)
    (i : Instruction) : Except VerifyError Unit :=
  match i.target? with
  | none => .ok ()
  | some target =>
      if (l.targetOf? i).isSome then
        .ok ()
      else
        .error (.invalidJumpTarget target i.offset)

/- The depth behind an instruction. -/
def depthAfter
    (p : ConstantPool)
    (limit : UInt16)
    (i : Instruction)
    (depth : Nat) : Except VerifyError Nat :=
  match i.effect? p with
  | none =>
      .error (.invalidConstantRef (i.constant?.getD 0) i.offset)
  | some (pops, pushes) =>
      let after := depth - pops + pushes
      if depth < pops then
        .error (.stackUnderflow i.offset)
      else if limit.toNat < after then
        .error (.stackOverflow i.offset after limit)
      else
        .ok after

/-
  The positions that may follow one: the next, unless the
  instruction never goes on, and the target of a jump.
-/
def successors
    (l : CodeMap)
    (position : Nat)
    (i : Instruction) : Except VerifyError (List Nat) :=
  let target := (l.targetOf? i).toList
  if i.opcode.isTerminator then
    .ok target
  else if position + 1 < l.instructions.size then
    .ok ((position + 1) :: target)
  else
    .error (.fallOffEnd i.offset)

/-
  Follow all paths from the positions still to visit, each
  with the depth on arrival.  A position is visited once, and
  every other arrival there must have the same depth.
-/
def explore
    (l : CodeMap)
    (p : ConstantPool)
    (limit : UInt16)
    (depths : Array (Option Nat)) :
    List (Nat × Nat) → Except VerifyError Unit
  | [] => .ok ()
  | (position, depth) :: work =>
      match l.instructions[position]? with
      | none => explore l p limit depths work
      | some i =>
          if h : position < depths.size then
            match hSeen : depths[position] with
            | some seen =>
                if seen = depth then
                  explore l p limit depths work
                else
                  .error
                    (.inconsistentStack i.offset seen depth)
            | none =>
                match depthAfter p limit i depth with
                | .error e => .error e
                | .ok after =>
                    match successors l position i with
                    | .error e => .error e
                    | .ok next =>
                        explore l p limit
                          (depths.set position (some depth))
                          (next.map (·, after) ++ work)
          else
            explore l p limit depths work
termination_by work =>
  (depths.countP Option.isNone, work.length)
decreasing_by
  all_goals simp_wf
  · exact Prod.Lex.right _ (by omega)
  · exact Prod.Lex.right _ (by omega)
  · apply Prod.Lex.left
    have hPos : 0 < depths.countP Option.isNone :=
      Array.countP_pos_iff.mpr
        ⟨depths[position], Array.getElem_mem h, by simp [hSeen]⟩
    rw [Array.countP_set]
    simp only [hSeen, Option.isNone_none, Option.isNone_some]
    grind
  · exact Prod.Lex.right _ (by omega)

end CodeMap

------------------------------------------------------------
-- Method Bodies and Classes
------------------------------------------------------------

/- A method body is well-formed. -/
def CodeAttribute.verify
    (c : CodeAttribute)
    (p : ConstantPool) : Except VerifyError Unit :=
  match decodeCode c.code with
  | .error (.invalidOpcode byte offset) =>
      .error (.invalidOpcode byte offset)
  | .error e => .error (.decode e)
  | .ok [] => .error (.malformedClass "empty Code attribute")
  | .ok is => do
      let l := CodeMap.ofList is
      is.forM l.checkTarget
      is.forM (Instruction.checkConstant p)
      is.forM (Instruction.checkLocal c.maxLocals)
      l.explore p c.maxStack
        (Array.replicate is.length none) [(0, 0)]

namespace ClassFile

/- Whether a method has no body by intent. -/
def isAbstract
    (m : Member) : Bool :=
  m.access &&& 0x0400 != 0

/- The body of a method is well-formed, or rightly missing. -/
def verifyMethod
    (c : ClassFile)
    (m : Member) : Except VerifyError Unit :=
  let name :=
    (c.memberName? m).getD "?" ++
      (c.memberDescriptor? m).getD "?"
  let result :=
    match c.codeOf? m with
    | some (.ok code) => code.verify c.pool
    | some (.error e) => .error (.decode e)
    | none =>
        if isAbstract m then
          .ok ()
        else
          .error (.malformedClass "concrete method without Code")
  result.mapError (.method name)

/- A class file is well-formed. -/
def verify
    (c : ClassFile) : Except VerifyError Unit :=
  if c.thisName?.isSome then
    c.methods.forM c.verifyMethod
  else
    .error (.malformedClass "this_class is not a class constant")

/- The class file with given bytes, if it is well-formed. -/
def parseVerified
    (bytes : Array UInt8) : Except VerifyError ClassFile :=
  match ClassFile.parse bytes with
  | .error e => .error (.decode e)
  | .ok c => do
      c.verify
      return c

end ClassFile

end Stratagem

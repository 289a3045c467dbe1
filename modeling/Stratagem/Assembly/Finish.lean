import Stratagem.Assembly.Branch
import Stratagem.ClassFile.Frame

/-
  Finished methods.

  Jumps get their distances, and the locals and the types at
  jump targets are listed in tables.

  Key definitions include:
    * `Line.resolve`
    * `MethodDraft.localTable`
    * `MethodDraft.frames`
    * `MethodDraft.finish`
-/

namespace Stratagem

open Jvm

------------------------------------------------------------
-- Jumps
------------------------------------------------------------

/- The instruction of a line, given the offsets of labels. -/
def Line.resolve
    (method : String)
    (labels : Array LabelState) :
    Line → Except ClassFileError Instruction
  | .instruction i => .ok i
  | .jump offset opcode l =>
      match (labels.getD l.index {}).offset with
      | none => .error (.unboundLabel l.index method)
      | some target =>
          let distance : Int := target - offset
          if -32768 ≤ distance ∧ distance ≤ 32767 then
            .ok {
              offset
              opcode
              operands := be16 (Int16.ofInt distance).toUInt16 }
          else
            .error (.branchOutOfRange offset target)

namespace MethodDraft

/- The instructions of a draft. -/
def resolve
    (m : MethodDraft) :
    Except ClassFileError (List Instruction) :=
  m.lines.toList.mapM (Line.resolve m.name m.labels)

------------------------------------------------------------
-- Tables
------------------------------------------------------------

/- An attribute that holds the index of a signature. -/
def signatureAttribute
    (signature : String) : Pooling Attribute := do
  let name ← Pooling.text "Signature"
  let value ← Pooling.text signature
  return { name, info := be16 value }

/- The entry of a local that holds a value in the code. -/
def localEntry
    (size start : Nat)
    (v : LocalVar) : Pooling LocalVariable := do
  let name ← Pooling.text v.name
  match v.ty.descriptor with
  | .error e => throw (.type e)
  | .ok descriptor =>
      let descriptor ← Pooling.text descriptor
      return {
        start := UInt16.ofNat start
        length := UInt16.ofNat (size - start)
        name
        descriptor
        slot := UInt16.ofNat v.slot }

/- The entries of the locals that hold values in the code. -/
def localEntries
    (size : Nat) :
    List LocalVar → Pooling (List LocalVariable)
  | [] => return []
  | v :: rest =>
      match v.start with
      | some start =>
          if start < size then do
            let entry ← localEntry size start v
            let more ← localEntries size rest
            return entry :: more
          else
            localEntries size rest
      | none => localEntries size rest

/- The table of locals, if it has entries. -/
def localTable
    (m : MethodDraft)
    (size : Nat) : Pooling (List Attribute) := do
  match ← localEntries size m.locals.toList with
  | [] => return []
  | entries =>
      let name ← Pooling.text "LocalVariableTable"
      return [{ name, info := LocalVariable.encodeTable entries }]

/- The frame at a label that something jumps to. -/
def frameAt?
    (state : LabelState) : Option Frame :=
  match state.targeted, state.offset, state.entry with
  | true, some offset, some entry =>
      some {
        offset := UInt16.ofNat offset
        locals := entry.slots.toList
        stack := entry.stack.reverse }
  | _, _, _ => none

/- Keep the first of neighbours with the same offset. -/
def dropRepeats : List Frame → List Frame
  | f :: g :: rest =>
      if f.offset = g.offset then dropRepeats (f :: rest)
      else f :: dropRepeats (g :: rest)
  | fs => fs
termination_by fs => fs.length

/- The frames at jump targets, by offset. -/
def frames
    (m : MethodDraft) : List Frame :=
  dropRepeats
    ((m.labels.toList.filterMap frameAt?).mergeSort
      fun f g => f.offset ≤ g.offset)

/- The first version of class files that lists frames. -/
def frameVersion : UInt16 :=
  50

/- The table of frames, if there are any to list. -/
def frameTable
    (m : MethodDraft) : Pooling (List Attribute) :=
  if m.version < frameVersion then
    return []
  else
    match m.frames with
    | [] => return []
    | frames => do
        let info ← Frame.encodeTable frames
        let name ← Pooling.text "StackMapTable"
        return [{ name, info }]

------------------------------------------------------------
-- Members
------------------------------------------------------------

/- The member with a given code, which is not empty. -/
def member
    (m : MethodDraft)
    (code : List UInt8) : Pooling Member := do
  let localTable ← m.localTable code.length
  let frameTable ← m.frameTable
  let body : CodeAttribute :=
    { maxStack := m.maxStack
      maxLocals := m.maxLocals
      code
      attributes := localTable ++ frameTable }
  let codeName ← Pooling.text "Code"
  let signature ← m.signature.toList.mapM signatureAttribute
  let name ← Pooling.text m.name
  let descriptor ← Pooling.text m.descriptor
  return {
    access := m.access
    name
    descriptor
    attributes :=
      { name := codeName, info := body.encode } :: signature }

/-
  The finished method.  A fault that was kept comes first,
  then jumps without a target, then the size of the code.
-/
def finish : Emitter Member := do
  let m ← get
  match m.fault, m.resolve with
  | some e, _ => throw e
  | none, .error e => throw e
  | none, .ok instructions =>
      let code := instructions.flatMap Instruction.encode
      let size := code.length
      if size = 0 ∨ 65535 < size then
        throw (.codeTooLarge m.name size)
      else
        Emitter.pooled (m.member code)

end MethodDraft

end Stratagem

import Stratagem.Assembly.Emitter

/-
  Labels and jumps.

  The types at a label are those at the first jump to it, or,
  if it is bound before any jump, those at the end of the code
  then.

  Key definitions include:
    * `MethodDraft.bind`
    * `MethodDraft.jump`
    * `Emitter.newLabel`
    * `Emitter.bind`
    * `Emitter.goto`
    * `Emitter.returnValue`
-/

namespace Stratagem

open Jvm

namespace MethodDraft

/- The slots of values, as a sixteen-bit number. -/
def slotsOf
    (stack : List VType) : UInt16 :=
  UInt16.ofNat (VType.totalSlots stack)

/- Go on with the types of a snapshot; newer slots are unknown. -/
def resume
    (m : MethodDraft)
    (s : Snapshot) : MethodDraft :=
  { m with
    slots :=
      s.slots ++
        Array.replicate (m.slots.size - s.slots.size) .top
    stack := s.stack
    depth := slotsOf s.stack
    reachable := true }

/- Bind a label to the end of the code. -/
def bind
    (m : MethodDraft)
    (l : Label) : MethodDraft :=
  let state := m.labels.getD l.index {}
  if state.offset.isSome then
    m.blame (.labelRebound l.index m.name)
  else
    let entry := state.entry.getD m.snapshot
    let m := m.resume entry
    { m with
      labels := m.labels.setIfInBounds l.index
        { state with
          offset := some m.offset
          entry := some entry } }

/- Write a jump to a label. -/
def jump
    (m : MethodDraft)
    (opcode : Opcode)
    (l : Label) : MethodDraft :=
  let state := m.labels.getD l.index {}
  let m := m.append (.jump m.offset opcode l)
  { m with
    labels := m.labels.setIfInBounds l.index
      { state with
        entry := state.entry <|> some m.snapshot
        targeted := true } }

end MethodDraft

namespace Emitter

/- A new label, not yet bound. -/
def newLabel : Emitter Label :=
  modifyGet fun m =>
    (⟨m.labels.size⟩, { m with labels := m.labels.push {} })

/- Bind a label to the end of the code. -/
def bind
    (l : Label) : Emitter Unit :=
  modify (·.bind l)

/- Jump to a label. -/
def goto
    (l : Label) : Emitter Unit :=
  modify fun m => (m.jump .goto l).terminate

/- Jump to a label if the top of the stack is null. -/
def ifnull
    (l : Label) : Emitter Unit := do
  discard pop
  modify (·.jump .ifnull l)

/- Jump to a label unless the top of the stack is null. -/
def ifnonnull
    (l : Label) : Emitter Unit := do
  discard pop
  modify (·.jump .ifnonnull l)

/- Return the top of the stack, or nothing. -/
def returnValue
    (ty : Ty) : Emitter Unit := do
  if ty == .primitive .void then
    write .returnVoid []
  else
    discard pop
    write (.returnValue (.ofTy ty)) []
  modify MethodDraft.terminate

end Emitter

end Stratagem

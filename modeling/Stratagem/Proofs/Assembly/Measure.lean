import Stratagem.Proofs.Assembly.Calls
import Stratagem.Proofs.ClassFile.DepthSafety

/-
  Drafts whose stack is measured.

  Each line of a draft is marked with what it does and with
  the depth of the stack before it.  Whatever can follow a line
  is marked with the depth behind it, and so is the place of
  every label that the line may jump to.

  Key definitions include:
    * `Action.Takes`
    * `Mark`
    * `MethodDraft.DepthAt`
    * `Measured`

  Main declarations:
    * `Measured.idle`
    * `Measured.write`
    * `Measured.jump`
    * `Measured.bind`
-/

namespace Stratagem

open Jvm

------------------------------------------------------------
-- Marks
------------------------------------------------------------

/- The operation that jumps under a condition. -/
def Condition.opcode : Condition → Opcode
  | .always => .goto
  | .ifNull => .ifnull
  | .ifNonNull => .ifnonnull

/- An action takes the stack from one depth to another. -/
def Action.Takes
    (a : Action)
    (depth after : Nat) : Prop :=
  ∃ base pops pushes, a.effect? = some (pops, pushes) ∧
    depth = base + pops ∧ after = base + pushes

/- The label that a line names. -/
def Line.label? : Line → Option Label
  | .instruction _ => none
  | .jump _ _ l => some l

/-
  A line where it stands, with what it does and the depth of
  the stack before it.
-/
structure Mark where
  offset : Nat
  line : Line
  action : Action
  depth : Nat

/- Where the next line stands. -/
def Mark.next
    (k : Mark) : Nat :=
  k.offset + k.line.size

/- The line of a mark does what the mark says. -/
inductive Mark.Tells
    (p : ConstantPool) : Mark → Prop
  | instruction
      {i : Instruction}
      {a : Action}
      {depth : Nat}
      (hLegal : i.Legal)
      (hAction : i.action? p = some a)
      (hPlain : a.isJump = false) :
      Tells p ⟨i.offset, .instruction i, a, depth⟩
  | jump
      {offset depth : Nat}
      {c : Condition}
      {l : Label} :
      Tells p ⟨offset, .jump offset c.opcode l, .jump c, depth⟩

theorem Mark.Tells.within
    {p q : ConstantPool}
    {k : Mark}
    (hTells : k.Tells p)
    (hWithin : p.Within q) :
    k.Tells q := by
  cases hTells with
  | instruction hLegal hAction hPlain =>
      exact .instruction hLegal
        (Instruction.action?_within hWithin hAction) hPlain
  | jump => exact .jump

/- Marks one behind another, from one offset to another. -/
def Placed : Nat → List Mark → Nat → Prop
  | start, [], stop => start = stop
  | start, k :: ks, stop =>
      k.offset = start ∧ Placed k.next ks stop

theorem Placed.append
    {start stop : Nat}
    {ks : List Mark}
    {k : Mark}
    (hPlaced : Placed start ks stop)
    (hNext : k.offset = stop) :
    Placed start (ks ++ [k]) k.next := by
  induction ks generalizing start with
  | nil =>
      cases hPlaced
      exact ⟨hNext, rfl⟩
  | cons first ks ih =>
      rcases hPlaced with ⟨hStart, hRest⟩
      exact ⟨hStart, ih hRest⟩

------------------------------------------------------------
-- Depths
------------------------------------------------------------

/- Slots on the stack of a snapshot. -/
def Snapshot.height
    (s : Snapshot) : Nat :=
  VType.totalSlots s.stack

namespace MethodDraft

/- Slots on the stack at the end of a draft. -/
def height
    (m : MethodDraft) : Nat :=
  VType.totalSlots m.stack

/- What is known of a label. -/
def labelAt
    (m : MethodDraft)
    (l : Label) : LabelState :=
  m.labels.getD l.index {}

theorem Bare.labelAt
    {m : MethodDraft}
    (hBare : m.Bare)
    (l : Label) :
    m.labelAt l = {} := by
  rw [MethodDraft.labelAt, hBare.labels]
  rfl

/-
  The depth of the stack at an offset: before a line, or at the
  end of a draft if the end is reached.
-/
def DepthAt
    (m : MethodDraft)
    (ks : List Mark)
    (x depth : Nat) : Prop :=
  (∃ k ∈ ks, k.offset = x ∧ k.depth = depth) ∨
    (m.offset = x ∧ m.reachable = true ∧ m.height = depth)

end MethodDraft

/- A line can be executed, and what can follow is marked so. -/
structure Mark.Flows
    (m : MethodDraft)
    (ks : List Mark)
    (k : Mark)
    (after : Nat) : Prop where
  takes : k.action.Takes k.depth after
  low : after ≤ m.maxStack.toNat
  next : k.action.isTerminator = false → m.DepthAt ks k.next after
  jump : ∀ l, k.line.label? = some l →
    ∃ e, (m.labelAt l).entry = some e ∧ e.height = after

/- A draft whose lines have marks. -/
structure Measured
    (m : MethodDraft)
    (ks : List Mark) : Prop where
  sound : m.Sound
  level : m.Level
  lines : m.lines.toList = ks.map Mark.line
  placed : Placed 0 ks m.offset
  tells : ∀ k ∈ ks, k.Tells m.pool
  range : ∀ k ∈ ks, ∀ slot width,
    k.action.slot? = some (slot, width) →
      slot + width ≤ Ty.widths m.types
  flows : ∀ k ∈ ks, ∃ after, k.Flows m ks after
  start : m.DepthAt ks 0 0
  bound : ∀ l x, (m.labelAt l).offset = some x →
    ∃ e, (m.labelAt l).entry = some e ∧ m.DepthAt ks x e.height
  low : ∀ l e, (m.labelAt l).entry = some e →
    e.height ≤ m.maxStack.toNat

------------------------------------------------------------
-- Moving On
------------------------------------------------------------

/- A draft became another that knows as much of its marks. -/
structure Onward
    (m : MethodDraft)
    (ks : List Mark)
    (m' : MethodDraft)
    (ks' : List Mark) : Prop where
  within : m.pool.Within m'.pool
  widths : Ty.widths m.types ≤ Ty.widths m'.types
  higher : m.maxStack.toNat ≤ m'.maxStack.toNat
  depths : ∀ x depth, m.DepthAt ks x depth →
    m'.DepthAt ks' x depth
  entries : ∀ l e, (m.labelAt l).entry = some e →
    (m'.labelAt l).entry = some e

section Moving

variable {m m' : MethodDraft} {ks ks' : List Mark} {k : Mark}

theorem Mark.Flows.onward
    {after : Nat}
    (hFlows : k.Flows m ks after)
    (hOnward : Onward m ks m' ks') :
    k.Flows m' ks' after := by
  refine ⟨hFlows.takes, Nat.le_trans hFlows.low hOnward.higher,
    ?_, ?_⟩
  · intro hGoesOn
    exact hOnward.depths _ _ (hFlows.next hGoesOn)
  · intro l hLabel
    rcases hFlows.jump l hLabel with ⟨e, hEntry, hHeight⟩
    exact ⟨e, hOnward.entries l e hEntry, hHeight⟩

/- What the labels are known for is known still. -/
theorem Measured.bound_onward
    (hMeasured : Measured m ks)
    (hOnward : Onward m ks m' ks')
    {l : Label}
    {x : Nat}
    (hOffset : (m.labelAt l).offset = some x) :
    ∃ e, (m'.labelAt l).entry = some e ∧
      m'.DepthAt ks' x e.height := by
  rcases hMeasured.bound l x hOffset with ⟨e, hEntry, hDepth⟩
  exact ⟨e, hOnward.entries l e hEntry, hOnward.depths _ _ hDepth⟩

/- More lines, or none, behind those that have marks. -/
theorem Measured.extend
    {new : List Mark}
    (hMeasured : Measured m ks)
    (hSound : m'.Sound)
    (hLevel : m'.Level)
    (hOnward : Onward m ks m' (ks ++ new))
    (hLines : m'.lines.toList = m.lines.toList ++ new.map Mark.line)
    (hPlaced : Placed 0 (ks ++ new) m'.offset)
    (hTells : ∀ k ∈ new, k.Tells m'.pool)
    (hRange : ∀ k ∈ new, ∀ slot width,
      k.action.slot? = some (slot, width) →
        slot + width ≤ Ty.widths m'.types)
    (hFlows : ∀ k ∈ new, ∃ after, k.Flows m' (ks ++ new) after)
    (hBound : ∀ l x, (m'.labelAt l).offset = some x →
      (m.labelAt l).offset = some x ∨
        ∃ e, (m'.labelAt l).entry = some e ∧
          m'.DepthAt (ks ++ new) x e.height)
    (hLow : ∀ l e, (m'.labelAt l).entry = some e →
      (m.labelAt l).entry = some e ∨
        e.height ≤ m'.maxStack.toNat) :
    Measured m' (ks ++ new) := by
  have hEach : ∀ {P : Mark → Prop}, (∀ k ∈ ks, P k) →
      (∀ k ∈ new, P k) → ∀ k ∈ ks ++ new, P k := by
    intro P hOld hNew k hk
    rcases List.mem_append.mp hk with hIn | hIn
    · exact hOld k hIn
    · exact hNew k hIn
  refine ⟨hSound, hLevel, ?_, hPlaced, hEach ?_ hTells,
    hEach ?_ hRange, hEach ?_ hFlows, ?_, ?_, ?_⟩
  · rw [hLines, hMeasured.lines, List.map_append]
  · intro k hk
    exact (hMeasured.tells k hk).within hOnward.within
  · intro k hk slot width hSlot
    exact Nat.le_trans (hMeasured.range k hk slot width hSlot)
      hOnward.widths
  · intro k hk
    rcases hMeasured.flows k hk with ⟨after, hOld⟩
    exact ⟨after, hOld.onward hOnward⟩
  · exact hOnward.depths _ _ hMeasured.start
  · intro l x hx
    rcases hBound l x hx with hOld | hNew
    · exact hMeasured.bound_onward hOnward hOld
    · exact hNew
  · intro l e he
    rcases hLow l e he with hOld | hNew
    · exact Nat.le_trans (hMeasured.low l e hOld) hOnward.higher
    · exact hNew

/- No more lines. -/
theorem Measured.stay
    (hMeasured : Measured m ks)
    (hSound : m'.Sound)
    (hLevel : m'.Level)
    (hOnward : Onward m ks m' ks)
    (hLines : m'.lines = m.lines)
    (hOffset : m'.offset = m.offset)
    (hBound : ∀ l x, (m'.labelAt l).offset = some x →
      (m.labelAt l).offset = some x ∨
        ∃ e, (m'.labelAt l).entry = some e ∧
          m'.DepthAt ks x e.height)
    (hLow : ∀ l e, (m'.labelAt l).entry = some e →
      (m.labelAt l).entry = some e ∨
        e.height ≤ m'.maxStack.toNat) :
    Measured m' ks := by
  have hNil : ks ++ [] = ks := List.append_nil ks
  have hAll : Measured m' (ks ++ []) := by
    refine hMeasured.extend hSound hLevel ?_ ?_ ?_
      (List.forall_mem_nil _) (List.forall_mem_nil _)
      (List.forall_mem_nil _) ?_ hLow
    · rw [hNil]
      exact hOnward
    · rw [hLines, List.map_nil, List.append_nil]
    · rw [hOffset, hNil]
      exact hMeasured.placed
    · rw [hNil]
      exact hBound
  rwa [hNil] at hAll

/- Neither more lines nor another depth. -/
theorem Measured.idle
    (hMeasured : Measured m ks)
    (hSound : m'.Sound)
    (hLevel : m'.Level)
    (hWithin : m.pool.Within m'.pool)
    (hWidths : Ty.widths m.types ≤ Ty.widths m'.types)
    (hHigher : m.maxStack.toNat ≤ m'.maxStack.toNat)
    (hLines : m'.lines = m.lines)
    (hOffset : m'.offset = m.offset)
    (hReached : m'.reachable = m.reachable)
    (hHeight : m'.height = m.height)
    (hLabels : ∀ l, m'.labelAt l = m.labelAt l) :
    Measured m' ks := by
  refine hMeasured.stay hSound hLevel
    ⟨hWithin, hWidths, hHigher, ?_, ?_⟩ hLines hOffset ?_ ?_
  · intro x depth hAt
    unfold MethodDraft.DepthAt
    rw [hOffset, hReached, hHeight]
    exact hAt
  · intro l e he
    rw [hLabels]
    exact he
  · intro l x hx
    rw [hLabels] at hx
    exact Or.inl hx
  · intro l e he
    rw [hLabels] at he
    exact Or.inl he

/- The end of a draft becomes the place of the next line. -/
theorem depthAt_append
    (hPlace : k.offset = m.offset)
    (hDepth : k.depth = m.height)
    {x depth : Nat}
    (hAt : m.DepthAt ks x depth) :
    m'.DepthAt (ks ++ [k]) x depth := by
  refine Or.inl ?_
  rcases hAt with ⟨j, hj, hBoth⟩ | ⟨hEnd, -, hHeight⟩
  · exact ⟨j, List.mem_append_left _ hj, hBoth⟩
  · exact ⟨k, by simp, hPlace.trans hEnd, hDepth.trans hHeight⟩

/- One more line where the end of a draft is. -/
theorem Measured.line
    {after : Nat}
    (hMeasured : Measured m ks)
    (hSound : m'.Sound)
    (hLevel : m'.Level)
    (hWithin : m.pool.Within m'.pool)
    (hTypes : m'.types = m.types)
    (hHigher : m.maxStack.toNat ≤ m'.maxStack.toNat)
    (hLines : m'.lines = m.lines.push k.line)
    (hPlace : k.offset = m.offset)
    (hDepth : k.depth = m.height)
    (hOffset : m'.offset = k.next)
    (hTells : k.Tells m'.pool)
    (hRange : ∀ slot width, k.action.slot? = some (slot, width) →
      slot + width ≤ Ty.widths m.types)
    (hTakes : k.action.Takes m.height after)
    (hAfter : after ≤ m'.maxStack.toNat)
    (hNext : k.action.isTerminator = false →
      m'.reachable = true ∧ m'.height = after)
    (hJump : ∀ l, k.line.label? = some l →
      ∃ e, (m'.labelAt l).entry = some e ∧ e.height = after)
    (hEntries : ∀ l e, (m.labelAt l).entry = some e →
      (m'.labelAt l).entry = some e)
    (hBound : ∀ l, (m'.labelAt l).offset = (m.labelAt l).offset)
    (hLow : ∀ l e, (m'.labelAt l).entry = some e →
      (m.labelAt l).entry = some e ∨ e.height = after) :
    Measured m' (ks ++ [k]) := by
  refine hMeasured.extend hSound hLevel ?_ ?_ ?_ ?_ ?_ ?_ ?_ ?_
  · refine ⟨hWithin, ?_, hHigher, ?_, hEntries⟩
    · exact Nat.le_of_eq (congrArg Ty.widths hTypes.symm)
    · intro x depth hAt
      exact depthAt_append hPlace hDepth hAt
  · rw [hLines, Array.toList_push]
    rfl
  · rw [hOffset]
    exact hMeasured.placed.append hPlace
  · intro j hj
    cases List.mem_singleton.mp hj
    exact hTells
  · intro j hj
    cases List.mem_singleton.mp hj
    rw [hTypes]
    exact hRange
  · intro j hj
    cases List.mem_singleton.mp hj
    refine ⟨after, ?_, hAfter, ?_, hJump⟩
    · rw [hDepth]
      exact hTakes
    · intro hGoesOn
      exact Or.inr ⟨hOffset, hNext hGoesOn⟩
  · intro l x hx
    rw [hBound l] at hx
    exact Or.inl hx
  · intro l e he
    rcases hLow l e he with hOld | hNew
    · exact Or.inl hOld
    · exact Or.inr (hNew ▸ hAfter)

end Moving

------------------------------------------------------------
-- Instructions
------------------------------------------------------------

/- A draft became another by writing one instruction. -/
structure Writes
    (m : MethodDraft)
    (a : Action)
    (m' : MethodDraft) : Prop where
  grown : m.pool.Grown m'.pool
  labels : m'.labels = m.labels
  types : m'.types = m.types
  code : ∃ i : Instruction,
    m'.lines = m.lines.push (.instruction i) ∧
    i.offset = m.offset ∧ i.Legal ∧
    m'.offset = m.offset + i.size ∧ i.action? m'.pool = some a
  range : ∀ slot width, a.slot? = some (slot, width) →
    slot + width ≤ Ty.widths m.types
  higher : m.maxStack.toNat ≤ m'.maxStack.toNat

section Instructions

variable {m m' : MethodDraft} {ks : List Mark} {a : Action}

theorem Emits.writes
    (hEmits : Emits m [a] [] m') :
    Writes m a m' := by
  have hTypes : m'.types = m.types := by
    rw [hEmits.types, List.append_nil]
  rcases hEmits.code with ⟨is, hLines, hLaid, hEnd, hActions⟩
  refine ⟨hEmits.grown, hEmits.labels, hTypes, ?_, ?_,
    hEmits.higher⟩
  · cases is with
    | nil => cases hActions
    | cons i is =>
        rcases List.cons.inj hActions with ⟨hAction, hNone⟩
        cases List.map_eq_nil_iff.mp hNone
        refine ⟨i, ?_, hLaid.1, hLaid.2.1, ?_, hAction⟩
        · apply Array.toList_inj.mp
          rw [hLines, Array.toList_push]
          rfl
        · rw [hEnd]
          rfl
  · rw [← hTypes]
    exact hEmits.range a List.mem_cons_self

/- One instruction, and then work on the stack alone. -/
theorem Writes.act
    {p : ConstantPool}
    {i : Instruction}
    (hGrown : m.pool.Grown p)
    (hPlace : i.offset = m.offset)
    (hLegal : i.Legal)
    (hAction : i.action? p = some a)
    (hNone : a.slot? = none)
    (hSame : MethodDraft.SameCode
      ({ m with pool := p }.append (.instruction i)) m') :
    Writes m a m' := by
  refine ⟨?_, hSame.labels, hSame.types, ⟨i, hSame.lines, hPlace,
    hLegal, hSame.offset, ?_⟩, ?_, hSame.higher⟩
  · rw [hSame.pool]
    exact hGrown
  · rw [hSame.pool]
    exact hAction
  · intro slot width hSlot
    rw [hNone] at hSlot
    cases hSlot

/- An instruction that does not jump. -/
theorem Measured.write
    {after : Nat}
    (hMeasured : Measured m ks)
    (hSound : m'.Sound)
    (hLevel : m'.Level)
    (hWrites : Writes m a m')
    (hPlain : a.isJump = false)
    (hTakes : a.Takes m.height after)
    (hAfter : after ≤ m'.maxStack.toNat)
    (hNext : a.isTerminator = false →
      m'.reachable = true ∧ m'.height = after) :
    ∃ ks', Measured m' ks' := by
  rcases hWrites.code with
    ⟨i, hLines, hPlace, hLegal, hOffset, hAction⟩
  have hLabels : ∀ l, m'.labelAt l = m.labelAt l := by
    intro l
    rw [MethodDraft.labelAt, MethodDraft.labelAt, hWrites.labels]
  refine ⟨ks ++ [⟨i.offset, .instruction i, a, m.height⟩], ?_⟩
  refine hMeasured.line hSound hLevel hWrites.grown.within
    hWrites.types hWrites.higher hLines hPlace rfl ?_
    (.instruction hLegal hAction hPlain) hWrites.range hTakes
    hAfter hNext nofun ?_ ?_ ?_
  · rw [hOffset, ← hPlace]
    rfl
  · intro l e he
    rw [hLabels]
    exact he
  · intro l
    rw [hLabels]
  · intro l e he
    rw [hLabels] at he
    exact Or.inl he

end Instructions

------------------------------------------------------------
-- Labels
------------------------------------------------------------

section Labels

variable {m m' : MethodDraft} {ks : List Mark} {l : Label}

/- A label that is set, and the others as they were. -/
theorem labelAt_set
    {state : LabelState}
    (hLabels : m'.labels = m.labels.setIfInBounds l.index state)
    (hIn : l.index < m.labels.size)
    (j : Label) :
    m'.labelAt j = if l = j then state else m.labelAt j := by
  unfold MethodDraft.labelAt
  rw [hLabels, Array.getD_eq_getD_getElem?,
    Array.getD_eq_getD_getElem?, Array.getElem?_setIfInBounds]
  by_cases hSame : l = j
  · subst hSame
    simp [hIn]
  · have hOther : l.index ≠ j.index := by
      intro hIndex
      apply hSame
      cases l
      cases j
      cases hIndex
      rfl
    rw [if_neg hOther, if_neg hSame]

/-
  A jump to a label that is known, if at all, for the depth at
  the jump.
-/
theorem Measured.jump
    {c : Condition}
    (hMeasured : Measured m ks)
    (entry : Snapshot)
    (hSound : m'.Sound)
    (hLevel : m'.Level)
    (hPool : m'.pool = m.pool)
    (hTypes : m'.types = m.types)
    (hHigher : m'.maxStack = m.maxStack)
    (hLines : m'.lines =
      m.lines.push (.jump m.offset c.opcode l))
    (hOffset : m'.offset = m.offset + 3)
    (hIn : l.index < m.labels.size)
    (hLabels : m'.labels = m.labels.setIfInBounds l.index
      { m.labelAt l with
        entry := (m.labelAt l).entry <|> some entry
        targeted := true })
    (hTakes : (Action.jump c).Takes m.height entry.height)
    (hJoins : ∀ e, (m.labelAt l).entry = some e →
      e.height = entry.height)
    (hNext : (Action.jump c).isTerminator = false →
      m'.reachable = true ∧ m'.height = entry.height) :
    ∃ ks', Measured m' ks' := by
  have hSet := labelAt_set hLabels hIn
  have hThere : ∃ e, (m'.labelAt l).entry = some e ∧
      e.height = entry.height := by
    rw [hSet, if_pos rfl]
    cases hKnown : (m.labelAt l).entry with
    | none => exact ⟨entry, rfl, rfl⟩
    | some e => exact ⟨e, rfl, hJoins e hKnown⟩
  have hAfter : entry.height ≤ m'.maxStack.toNat := by
    have hHigh := hMeasured.level.high
    have hDepth : m.depth.toNat = m.height :=
      hMeasured.level.depth
    rcases hTakes with ⟨base, pops, pushes, hEffect, hBefore,
      hBehind⟩
    have hNone : pushes = 0 := by
      cases c <;> cases hEffect <;> rfl
    rw [hHigher]
    omega
  refine ⟨ks ++ [⟨m.offset, .jump m.offset c.opcode l, .jump c,
    m.height⟩], ?_⟩
  refine hMeasured.line hSound hLevel ?_ hTypes ?_ hLines rfl rfl
    hOffset .jump nofun hTakes hAfter hNext ?_ ?_ ?_ ?_
  · rw [hPool]
    exact .refl _
  · exact Nat.le_of_eq (congrArg UInt16.toNat hHigher.symm)
  · intro j hj
    cases hj
    exact hThere
  · intro j e he
    rw [hSet]
    by_cases hSame : l = j
    · subst hSame
      rw [if_pos rfl, he]
      rfl
    · rw [if_neg hSame]
      exact he
  · intro j
    rw [hSet]
    by_cases hSame : l = j
    · subst hSame
      rw [if_pos rfl]
    · rw [if_neg hSame]
  · intro j e he
    by_cases hSame : l = j
    · subst hSame
      rcases hThere with ⟨e', he', hHeight⟩
      rw [he'] at he
      cases he
      exact Or.inr hHeight
    · rw [hSet, if_neg hSame] at he
      exact Or.inl he

/- A fault changes nothing that is measured. -/
theorem Measured.blame
    (hMeasured : Measured m ks)
    (e : ClassFileError) :
    Measured (m.blame e) ks :=
  hMeasured.idle
    (hMeasured.sound.of_same (.refl _) rfl rfl rfl)
    ⟨hMeasured.level.depth, hMeasured.level.high⟩ (.refl _)
    (Nat.le_refl _) (Nat.le_refl _) rfl rfl rfl rfl fun _ => rfl

/-
  A draft goes on at a label, with the depth that the label is
  known for.  If the end was reached, it was at that depth.
-/
theorem Measured.resume
    {entry : Snapshot}
    (hMeasured : Measured m ks)
    (hSound : m'.Sound)
    (hPool : m'.pool = m.pool)
    (hTypes : m'.types = m.types)
    (hHigher : m'.maxStack = m.maxStack)
    (hLines : m'.lines = m.lines)
    (hOffset : m'.offset = m.offset)
    (hReached : m'.reachable = true)
    (hStack : m'.stack = entry.stack)
    (hDepth : m'.depth = MethodDraft.slotsOf entry.stack)
    (hIn : l.index < m.labels.size)
    (hLabels : m'.labels = m.labels.setIfInBounds l.index
      { m.labelAt l with
        offset := some m.offset
        entry := some entry })
    (hKnown : ∀ e, (m.labelAt l).entry = some e → e = entry)
    (hLow : entry.height ≤ m.maxStack.toNat)
    (hJoins : m.reachable = true → entry.height = m.height) :
    Measured m' ks := by
  have hSet := labelAt_set hLabels hIn
  have hHeight : m'.height = entry.height :=
    congrArg VType.totalSlots hStack
  have hSmall := m.maxStack.toNat_lt
  have hNumber : m'.depth.toNat = entry.height := by
    rw [hDepth]
    exact (UInt16.toNat_ofNat').trans
      (Nat.mod_eq_of_lt (Nat.lt_of_le_of_lt hLow hSmall))
  refine hMeasured.stay hSound ⟨?_, ?_⟩ ⟨?_, ?_, ?_, ?_, ?_⟩ hLines
    hOffset ?_ ?_
  · exact hNumber.trans hHeight.symm
  · rw [hNumber, hHigher]
    exact hLow
  · rw [hPool]
    exact .refl _
  · exact Nat.le_of_eq (congrArg Ty.widths hTypes.symm)
  · exact Nat.le_of_eq (congrArg UInt16.toNat hHigher.symm)
  · intro x depth hAt
    rcases hAt with hLine | ⟨hEnd, hOpen, hHere⟩
    · exact Or.inl hLine
    · refine Or.inr ⟨hOffset.trans hEnd, hReached, ?_⟩
      rw [hHeight, hJoins hOpen, hHere]
  · intro j e he
    rw [hSet]
    by_cases hSame : l = j
    · subst hSame
      rw [if_pos rfl, hKnown e he]
    · rw [if_neg hSame]
      exact he
  · intro j x hx
    rw [hSet] at hx ⊢
    by_cases hSame : l = j
    · subst hSame
      rw [if_pos rfl] at hx ⊢
      cases hx
      exact Or.inr ⟨entry, rfl, Or.inr ⟨hOffset, hReached, hHeight⟩⟩
    · rw [if_neg hSame] at hx
      exact Or.inl hx
  · intro j e he
    rw [hSet] at he
    by_cases hSame : l = j
    · subst hSame
      rw [if_pos rfl] at he
      cases he
      rw [hHigher]
      exact Or.inr hLow
    · rw [if_neg hSame] at he
      exact Or.inl he

/-
  Where a label is bound, the depth is the one that it is known
  for; if the end was reached, it was reached with that depth.
-/
theorem Measured.bind
    (hMeasured : Measured m ks)
    (hIn : l.index < m.labels.size)
    (hJoins : m.reachable = true → ∀ e,
      (m.labelAt l).entry = some e → e.height = m.height) :
    Measured (m.bind l) ks := by
  have hSound := Emitter.sound_bind hMeasured.sound l
  by_cases hBound : (m.labelAt l).offset.isSome = true
  · have hBlame : m.bind l =
        m.blame (.labelRebound l.index m.name) := if_pos hBound
    rw [hBlame]
    exact hMeasured.blame _
  · have hBind : m.bind l =
        { m.resume ((m.labelAt l).entry.getD m.snapshot) with
          labels := m.labels.setIfInBounds l.index
            { m.labelAt l with
              offset := some m.offset
              entry :=
                some ((m.labelAt l).entry.getD m.snapshot) } } :=
      if_neg hBound
    have hDepth : m.depth.toNat = m.height := hMeasured.level.depth
    rw [hBind] at hSound ⊢
    refine hMeasured.resume hSound rfl rfl rfl rfl rfl rfl rfl rfl
      hIn rfl ?_ ?_ ?_
    · intro e he
      rw [he]
      rfl
    · cases hKnown : (m.labelAt l).entry with
      | none =>
          have hHigh := hMeasured.level.high
          rw [hDepth] at hHigh
          exact hHigh
      | some e => exact hMeasured.low l e hKnown
    · intro hReached
      cases hKnown : (m.labelAt l).entry with
      | none => rfl
      | some e => exact hJoins hReached e hKnown

end Labels

end Stratagem

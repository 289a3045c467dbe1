import Stratagem.Proofs.Assembly.Parameters

/-
  What is known at labels.

  A label is known for the types at the first jump to it, or
  for those where it was bound.  Whatever is recorded for it
  can be written, and holds no more values than bytes were
  written.

  Key definitions include:
    * `MethodDraft.known`
    * `MethodDraft.Recorded`
    * `Step.NamesMade`

  Main declarations:
    * `Step.recorded_runAll`
    * `Step.targeted_runAll`
-/

namespace Stratagem

open Jvm Emitter

------------------------------------------------------------
-- Labels
------------------------------------------------------------

namespace MethodDraft

variable {m m' n : MethodDraft} {l k : Label}

/- What a label is known for if it is bound or jumped to here. -/
def known
    (m : MethodDraft)
    (l : Label) : Snapshot :=
  (m.labelAt l).entry.getD m.snapshot

/- The draft goes on with what the label is known for. -/
def boundTo
    (m : MethodDraft)
    (l : Label) : MethodDraft :=
  { m.resume (m.known l) with
    labels := m.labels.setIfInBounds l.index
      { m.labelAt l with
        offset := some m.offset
        entry := some (m.known l) } }

/- A label is bound once, and a second time is a fault. -/
theorem bind_cases
    (m : MethodDraft)
    (l : Label) :
    m.bind l = m.blame (.labelRebound l.index m.name) ∨
      m.bind l = m.boundTo l := by
  unfold bind
  dsimp only
  split
  · exact Or.inl rfl
  · exact Or.inr rfl

theorem fault_blame
    (m : MethodDraft)
    (e : ClassFileError) :
    (m.blame e).fault ≠ none := by
  unfold blame
  cases m.fault <;> simp

theorem labelAt_boundTo
    (m : MethodDraft)
    (l k : Label) :
    (m.boundTo l).labelAt k =
      if l = k ∧ l.index < m.labels.size then
        { m.labelAt l with
          offset := some m.offset
          entry := some (m.known l) }
      else m.labelAt k :=
  labelAt_setIfInBounds rfl k

/- Binding a label makes it no target. -/
theorem targeted_labelAt_boundTo
    (m : MethodDraft)
    (l k : Label) :
    ((m.boundTo l).labelAt k).targeted = (m.labelAt k).targeted := by
  rw [labelAt_boundTo]
  split
  case isTrue hThis => rw [hThis.1]
  case isFalse => rfl

/- What is known at a label after a jump to it. -/
theorem entry_labelAt_jump
    (opcode : Opcode)
    (m : MethodDraft)
    (l k : Label) :
    ((m.jump opcode l).labelAt k).entry =
      if l = k ∧ l.index < m.labels.size then some (m.known l)
      else (m.labelAt k).entry := by
  rw [labelAt_jump]
  split
  case isTrue =>
      unfold known
      dsimp only
      cases (m.labelAt l).entry <;> rfl
  case isFalse => rfl

theorem labelAt_congr
    (hLabels : m'.labels = m.labels)
    (k : Label) :
    m'.labelAt k = m.labelAt k := by
  rw [labelAt, labelAt, hLabels]

------------------------------------------------------------
-- What Is Recorded
------------------------------------------------------------

/-
  What labels are known for can be written, and no stack among
  it is higher than the code is long.
-/
structure Recorded
    (m : MethodDraft) : Prop where
  writable : m.snapshot.Writable
  low : m.fault = none → m.stack.length ≤ m.offset
  entries : ∀ l, ∀ e ∈ (m.labelAt l).entry, e.Writable ∧
    (m.fault = none → e.stack.length ≤ m.offset)
  targeted : ∀ l, (m.labelAt l).targeted = true →
    (m.labelAt l).entry.isSome

namespace Recorded

theorem known
    (hRecorded : m.Recorded)
    (l : Label) :
    (m.known l).Writable ∧
      (m.fault = none → (m.known l).stack.length ≤ m.offset) := by
  unfold MethodDraft.known
  cases hEntry : (m.labelAt l).entry with
  | none => exact ⟨hRecorded.writable, hRecorded.low⟩
  | some e => exact hRecorded.entries l e hEntry

/- No label changed. -/
theorem of_same
    (hRecorded : m.Recorded)
    (hWritable : m'.snapshot.Writable)
    (hLow : m'.fault = none → m'.stack.length ≤ m'.offset)
    (hLabels : ∀ l, m'.labelAt l = m.labelAt l)
    (hLater : m.offset ≤ m'.offset)
    (hFault : m'.fault = none → m.fault = none) :
    m'.Recorded := by
  refine ⟨hWritable, hLow, fun l e he => ?_, fun l hTargeted => ?_⟩
  · rw [hLabels] at he
    have hOld := hRecorded.entries l e he
    exact ⟨hOld.1, fun hNone =>
      Nat.le_trans (hOld.2 (hFault hNone)) hLater⟩
  · rw [hLabels] at hTargeted ⊢
    exact hRecorded.targeted l hTargeted

theorem of_since
    {change : VType → VType}
    {spare : Nat}
    (hRecorded : m.Recorded)
    (hSince : m.Since change spare m') :
    m'.Recorded := by
  refine hRecorded.of_same (hSince.writable hRecorded.writable) ?_
    (labelAt_congr hSince.labels) hSince.later hSince.fault
  intro hFault
  have hBefore := hRecorded.low (hSince.fault hFault)
  have hLow := hSince.low hFault
  omega

/- One label is known for what it is known for here. -/
theorem of_known
    (hRecorded : m.Recorded)
    (hWritable : m'.snapshot.Writable)
    (hLow : m'.fault = none → m'.stack.length ≤ m'.offset)
    (hEntries : ∀ k, (m'.labelAt k).entry =
      if l = k ∧ l.index < m.labels.size then some (m.known l)
      else (m.labelAt k).entry)
    (hTargeted : ∀ k, ¬ (l = k ∧ l.index < m.labels.size) →
      (m'.labelAt k).targeted = (m.labelAt k).targeted)
    (hLater : m.offset ≤ m'.offset)
    (hFault : m'.fault = none → m.fault = none) :
    m'.Recorded := by
  refine ⟨hWritable, hLow, fun k e he => ?_, fun k hYes => ?_⟩
  · have hGood : e.Writable ∧
        (m.fault = none → e.stack.length ≤ m.offset) := by
      rw [hEntries] at he
      split at he
      case isTrue =>
          cases he
          exact hRecorded.known l
      case isFalse => exact hRecorded.entries k e he
    exact ⟨hGood.1, fun hNone =>
      Nat.le_trans (hGood.2 (hFault hNone)) hLater⟩
  · rw [hEntries]
    split
    case isTrue => rfl
    case isFalse hOther =>
        rw [hTargeted k hOther] at hYes
        exact hRecorded.targeted k hYes

theorem boundTo
    (hRecorded : m.Recorded)
    (l : Label) :
    (m.boundTo l).Recorded := by
  have hKnown := hRecorded.known l
  refine hRecorded.of_known (l := l) ⟨hKnown.1.stack, ?_⟩ hKnown.2
    ?_ ?_ (Nat.le_refl _) id
  · intro v hIn
    rcases Array.mem_append.mp hIn with hOld | hNew
    · exact hKnown.1.slots v hOld
    · rw [(Array.mem_replicate.mp hNew).2]
      exact VType.writable_top
  · intro k
    rw [labelAt_boundTo]
    split <;> rfl
  · exact fun k _ => m.targeted_labelAt_boundTo l k

theorem jump
    (hRecorded : m.Recorded)
    (opcode : Opcode)
    (l : Label) :
    (m.jump opcode l).Recorded := by
  refine hRecorded.of_known (l := l) hRecorded.writable
    (fun hFault => Nat.le_trans (hRecorded.low hFault)
      (Nat.le_add_right _ _))
    (m.entry_labelAt_jump opcode l) ?_ (Nat.le_add_right _ _) id
  intro k hOther
  rw [labelAt_jump, if_neg hOther]

theorem alloc
    {holds : VType}
    (hRecorded : m.Recorded)
    (hHolds : holds.Writable)
    (name : String)
    (ty : Ty)
    (start : Option Nat) :
    (m.alloc name ty start holds).2.Recorded := by
  refine hRecorded.of_same ⟨hRecorded.writable.stack, fun v hIn => ?_⟩
    hRecorded.low (fun _ => rfl) (Nat.le_refl _) id
  have hSlots : v ∈ m.slots ∨ v = holds ∨ v = .top := by
    simp only [snapshot, MethodDraft.alloc] at hIn
    split at hIn
    · simpa [or_assoc] using hIn
    · exact (Array.mem_push.mp hIn).imp_right Or.inl
  rcases hSlots with hOld | rfl | rfl
  · exact hRecorded.writable.slots v hOld
  · exact hHolds
  · exact VType.writable_top

theorem terminate
    (hRecorded : m.Recorded) :
    m.terminate.Recorded :=
  hRecorded.of_since (Since.refl m).terminate

end Recorded

end MethodDraft

namespace Step

open MethodDraft

variable {m m' : MethodDraft} {s : Step} {steps : List Step}

theorem Turns.recorded
    (hTurns : s.Turns m m')
    (hRecorded : m.Recorded) :
    m'.Recorded := by
  cases hTurns with
  | passive _ hChanges => exact hRecorded.of_since hChanges.since
  | @stored l v n hLocal hSince =>
      have hBefore := hRecorded.of_since hSince
      refine hBefore.of_same ⟨hBefore.writable.stack, ?_⟩
        hBefore.low (fun _ => rfl) (Nat.le_refl _) id
      intro w hIn
      rcases Array.mem_or_eq_of_mem_setIfInBounds hIn with hOld | rfl
      · exact hBefore.writable.slots w hOld
      · exact VType.writable_ofTy v.ty
  | missing => exact hRecorded
  | added => exact hRecorded.alloc VType.writable_top _ _ _
  | full => exact hRecorded
  | labelled =>
      exact hRecorded.of_same hRecorded.writable hRecorded.low
        (labelAt_push m) (Nat.le_refl _) id
  | @bound l =>
      rcases m.bind_cases l with hBlame | hBound
      · rw [hBlame]
        have hNever := m.fault_blame (.labelRebound l.index m.name)
        exact hRecorded.of_same hRecorded.writable
          (fun hNone => absurd hNone hNever) (fun _ => rfl)
          (Nat.le_refl _) (fun hNone => absurd hNone hNever)
      · rw [hBound]
        exact hRecorded.boundTo l
  | jumped _ hSince => exact (hRecorded.of_since hSince).jump _ _
  | left _ hSince =>
      exact ((hRecorded.of_since hSince).jump _ _).terminate

theorem recorded_runAll
    (steps : List Step)
    (hRecorded : m.Recorded) :
    (runAll steps m).Recorded := by
  induction steps generalizing m with
  | nil => exact hRecorded
  | cons s steps ih => exact ih ((turns_apply s m).recorded hRecorded)

end Step

------------------------------------------------------------
-- Jumps to Labels
------------------------------------------------------------

namespace Step

open MethodDraft

variable {m m' : MethodDraft} {s : Step} {steps : List Step}
variable {k : Label}

/- A step names a label only if there is one. -/
def NamesMade
    (m : MethodDraft)
    (s : Step) : Prop :=
  ∀ l ∈ s.label?, l.index < m.labels.size

instance
    (m : MethodDraft)
    (s : Step) :
    Decidable (s.NamesMade m) :=
  inferInstanceAs (Decidable (∀ l ∈ s.label?, l.index < m.labels.size))

theorem label?_of_jump?
    {opcode : Opcode}
    (hJump : s.jump? = some (opcode, k)) :
    s.label? = some k := by
  cases s with
  | goto l =>
      cases hJump
      rfl
  | ifnull l =>
      cases hJump
      rfl
  | ifnonnull l =>
      cases hJump
      rfl
  | _ => cases hJump

/- A label is a target from the first jump to it on. -/
theorem Turns.targeted_iff
    (hTurns : s.Turns m m')
    (hMade : s.NamesMade m) :
    (m'.labelAt k).targeted = true ↔
      (m.labelAt k).targeted = true ∨
        ∃ opcode, s.jump? = some (opcode, k) := by
  have hSame : s.jump? = none →
      (m'.labelAt k).targeted = (m.labelAt k).targeted →
      ((m'.labelAt k).targeted = true ↔
        (m.labelAt k).targeted = true ∨
          ∃ opcode, s.jump? = some (opcode, k)) := by
    intro hNone hLabel
    rw [hLabel, hNone]
    simp
  have hJumped : ∀ {opcode : Opcode} {l : Label} {n : MethodDraft},
      s.jump? = some (opcode, l) → m.Since id 0 n →
      (((n.jump opcode l).labelAt k).targeted = true ↔
        (m.labelAt k).targeted = true ∨
          ∃ opcode, s.jump? = some (opcode, k)) := by
    intro opcode l n hJump hSince
    have hIn := hMade l (label?_of_jump? hJump)
    rw [labelAt_jump, hSince.labels, labelAt_congr hSince.labels,
      labelAt_congr hSince.labels, hJump]
    by_cases hThis : l = k
    · rw [if_pos ⟨hThis, hIn⟩, hThis]
      exact iff_of_true rfl (Or.inr ⟨opcode, rfl⟩)
    · rw [if_neg fun h => hThis h.1, or_iff_left]
      rintro ⟨other, hOther⟩
      cases hOther
      exact hThis rfl
  cases hTurns with
  | passive hPassive hChanges =>
      refine hSame ?_ (congrArg LabelState.targeted
        (labelAt_congr hChanges.since.labels k))
      cases s with
      | goto l => cases hPassive
      | ifnull l => cases hPassive
      | ifnonnull l => cases hPassive
      | _ => rfl
  | stored hLocal hSince =>
      exact hSame rfl (congrArg LabelState.targeted
        (labelAt_congr hSince.labels k))
  | missing => exact hSame rfl rfl
  | added => exact hSame rfl rfl
  | full => exact hSame rfl rfl
  | labelled =>
      exact hSame rfl (congrArg LabelState.targeted (labelAt_push m k))
  | @bound l =>
      refine hSame rfl ?_
      rcases m.bind_cases l with hBlame | hBound
      · rw [hBlame]
        rfl
      · rw [hBound]
        exact m.targeted_labelAt_boundTo l k
  | jumped hJump hSince => exact hJumped hJump hSince
  | left hJump hSince => exact hJumped hJump hSince

/- In the end the targets are the labels that were jumped to. -/
theorem targeted_runAll
    (hMade : Always NamesMade steps m) :
    ((runAll steps m).labelAt k).targeted = true ↔
      (m.labelAt k).targeted = true ∨
        ∃ x opcode, JumpsAt steps m x opcode k := by
  induction steps generalizing m with
  | nil =>
      refine ⟨Or.inl, fun h => h.resolve_right ?_⟩
      rintro ⟨x, opcode, hNone⟩
      exact hNone
  | cons s steps ih =>
      have hRest := ih hMade.2
      rw [(turns_apply s m).targeted_iff hMade.1, or_assoc] at hRest
      refine hRest.trans (or_congr_right ?_)
      constructor
      · rintro (⟨opcode, hJump⟩ | ⟨x, opcode, hLater⟩)
        · exact ⟨m.offset, opcode, Or.inl ⟨rfl, hJump⟩⟩
        · exact ⟨x, opcode, Or.inr hLater⟩
      · rintro ⟨x, opcode, ⟨-, hJump⟩ | hLater⟩
        · exact Or.inl ⟨opcode, hJump⟩
        · exact Or.inr ⟨x, opcode, hLater⟩

end Step

/- A new method has no labels yet. -/
theorem ClassDraft.recorded_method
    {flags : UInt16}
    {name : String}
    {signature : MethodSig}
    {paramNames : List String}
    {c : ClassDraft}
    {m : MethodDraft}
    (hMethod : c.method flags name signature paramNames = .ok m) :
    m.Recorded := by
  refine method_induct (P := fun _ m => m.Recorded) hMethod
    ?_ ?_ ?_
  · intro descriptor generic _
    refine ⟨⟨List.forall_mem_nil _, fun v hIn => ?_⟩,
      fun _ => Nat.le_refl _, fun l e he => ?_, fun l hTargeted => ?_⟩
    · simp [MethodDraft.snapshot] at hIn
    · simp [MethodDraft.labelAt] at he
    · simp [MethodDraft.labelAt] at hTargeted
  · intro m holds _ hHolds hRecorded
    refine hRecorded.alloc (fun x hSame => ?_) _ _ _
    rcases hHolds with rfl | rfl
    · cases hSame
    · cases hSame
  · intro done m name t _ _ hRecorded
    exact hRecorded.alloc (VType.writable_ofTy t) _ _ _

end Stratagem

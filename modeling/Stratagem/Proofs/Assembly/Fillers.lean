import Stratagem.Proofs.Assembly.Entries

/-
  Behind each type of two slots there is a filler.

  A local of two slots leaves the second one unusable.  This
  stays so, whatever steps are taken, unless a constructor is
  called on what is unusable, which makes an object of every
  filler.  A local whose type is wider than its slots is no
  exception: once it holds a value, the method cannot be
  finished.

  Key definitions include:
    * `LocalVar.FilledIn`
    * `LocalVar.Misfit`
    * `MethodDraft.Spoilt`
    * `MethodDraft.Padded`
    * `Snapshot.Filled`

  Main declarations:
    * `Step.padded_runAll`
    * `MethodDraft.FilledBy.filled`
-/

namespace Stratagem

open Jvm Emitter

------------------------------------------------------------
-- Filled Slots
------------------------------------------------------------

/-
  A local has its slots, if it has any: the type in the first
  one is not wider than the local, and the other is unusable.
-/
def LocalVar.FilledIn
    (v : LocalVar)
    (slots : Array VType) : Prop :=
  v.slot < slots.size → v.slot + v.ty.width ≤ slots.size ∧
    (slots.getD v.slot .top).slots ≤ v.ty.width ∧
    ∀ k, v.slot < k → k < v.slot + v.ty.width →
      slots[k]? = some .top

/- A local whose values are wider than it is. -/
def LocalVar.Misfit
    (v : LocalVar) : Prop :=
  v.ty.width < (VType.ofTy v.ty).slots

/- Behind each type of two slots there is a slot, unusable. -/
def Snapshot.Filled
    (s : Snapshot) : Prop :=
  ∀ (i : Nat) (v : VType), s.slots[i]? = some v → v.slots = 2 →
    s.slots[i + 1]? = some .top

namespace LocalVar.FilledIn

variable {v w : LocalVar} {slots slots' : Array VType}

/- Only the slots of the local matter. -/
theorem of_same
    (hFilled : v.FilledIn slots)
    (hTy : w.ty = v.ty)
    (hSlot : w.slot = v.slot)
    (hSize : slots.size ≤ slots'.size)
    (hIn : v.slot < slots'.size → v.slot < slots.size)
    (hSame : ∀ k, v.slot ≤ k → k < v.slot + v.ty.width →
      slots'[k]? = slots[k]?) :
    w.FilledIn slots' := by
  have hPos := v.ty.width_pos
  intro hThere
  rw [hSlot] at hThere
  rcases hFilled (hIn hThere) with ⟨hFits, hWide, hTops⟩
  rw [hTy, hSlot]
  refine ⟨Nat.le_trans hFits hSize, ?_, fun k hLow hHigh => ?_⟩
  · rw [Array.getD_eq_getD_getElem?, hSame _ (Nat.le_refl _) (by omega),
      ← Array.getD_eq_getD_getElem?]
    exact hWide
  · rw [hSame k (Nat.le_of_lt hLow) hHigh]
    exact hTops k hLow hHigh

/- Types that become objects get no wider. -/
theorem map
    {change : VType → VType}
    (hFilled : v.FilledIn slots)
    (hMade : VType.Initializes change)
    (hTop : change .top = .top) :
    v.FilledIn (slots.map change) := by
  have hPos := v.ty.width_pos
  intro hThere
  rw [Array.size_map] at hThere
  rcases hFilled hThere with ⟨hFits, hWide, hTops⟩
  refine ⟨?_, ?_, fun k hLow hHigh => ?_⟩
  · rw [Array.size_map]
    exact hFits
  · rw [Array.getD_eq_getD_getElem?, Array.getElem?_eq_getElem hThere]
      at hWide
    rw [Array.getD_eq_getD_getElem?, Array.getElem?_map,
      Array.getElem?_eq_getElem hThere]
    rcases hMade slots[v.slot] with hSame | ⟨name, hObject⟩
    · rw [Option.map_some, hSame]
      exact hWide
    · rw [Option.map_some, hObject]
      exact hPos
  · rw [Array.getElem?_map, hTops k hLow hHigh, Option.map_some, hTop]

/- Unusable slots are there as a whole. -/
theorem of_tops
    (hFits : v.slot + v.ty.width ≤ slots.size)
    (hTops : ∀ k, v.slot ≤ k → k < v.slot + v.ty.width →
      slots[k]? = some .top) :
    v.FilledIn slots := by
  have hPos := v.ty.width_pos
  intro _
  refine ⟨hFits, ?_, fun k hLow => hTops k (Nat.le_of_lt hLow)⟩
  rw [Array.getD_eq_getD_getElem?, hTops _ (Nat.le_refl _) (by omega)]
  exact hPos

end LocalVar.FilledIn

namespace MethodDraft

/- Slots as far as there are any have what their locals need. -/
def FilledBy
    (m : MethodDraft)
    (slots : Array VType) : Prop :=
  ∀ (i : Nat) (v : LocalVar), m.locals[i]? = some v →
    v.FilledIn slots

/- A local that holds a value too wide for it, from early on. -/
def Spoilt
    (m : MethodDraft)
    (x : Nat) : Prop :=
  ∃ (i : Nat) (v : LocalVar) (start : Nat),
    m.locals[i]? = some v ∧ v.Misfit ∧ start ∈ v.start ∧ start < x

theorem Spoilt.later
    {m m' : MethodDraft}
    {x y : Nat}
    (hSpoilt : m.Spoilt x)
    (hInherits : m.Inherits m')
    (hLess : x ≤ y) :
    m'.Spoilt y := by
  rcases hSpoilt with ⟨i, v, start, hLocal, hMisfit, hStart, hEarly⟩
  rcases hInherits.locals i v hLocal with ⟨w, hLater, hGrows⟩
  refine ⟨i, w, start, hLater, ?_, hGrows.start start hStart,
    Nat.lt_of_lt_of_le hEarly hLess⟩
  unfold LocalVar.Misfit
  rw [hGrows.ty]
  exact hMisfit

namespace FilledBy

variable {m m' : MethodDraft} {slots : Array VType}

theorem of_same
    (hFilled : m.FilledBy slots)
    (hLocals : m'.locals = m.locals) :
    m'.FilledBy slots := by
  intro i v hLocal
  rw [hLocals] at hLocal
  exact hFilled i v hLocal

/- A value of a local is as wide as the local. -/
theorem stored
    {l : Local}
    {v : LocalVar}
    (hFilled : m.FilledBy slots)
    (hLocal : m.locals[l.index]? = some v) :
    (m.stored l v).FilledBy slots := by
  intro i w hNow
  rw [getElem?_stored hLocal] at hNow
  split at hNow
  case isTrue =>
      cases hNow
      exact hFilled l.index v hLocal
  case isFalse => exact hFilled i w hNow

/-
  A local that is not stored to does not have the slot, so it
  keeps what is behind its value.
-/
theorem store
    {l : Local}
    {v : LocalVar}
    (hFilled : m.FilledBy m.slots)
    (hLaid : m.Laid)
    (hLocal : m.locals[l.index]? = some v)
    (hFits : ¬ v.Misfit) :
    (m.stored l v).FilledBy (m.stored l v).slots := by
  have hWithin := hLaid.add_width_le hLocal
  have hPos := v.ty.width_pos
  intro i w hNow
  have hOther : ∀ k, k ≠ v.slot →
      (m.stored l v).slots[k]? = m.slots[k]? := by
    intro k hNe
    exact Array.getElem?_setIfInBounds_ne (Ne.symm hNe)
  have hSize : (m.stored l v).slots.size = m.slots.size :=
    Array.size_setIfInBounds
  rw [getElem?_stored hLocal] at hNow
  split at hNow
  case isTrue =>
      cases hNow
      intro hThere
      rcases hFilled l.index v hLocal (hSize ▸ hThere) with
        ⟨hRange, -, hTops⟩
      refine ⟨hSize.symm ▸ hRange, ?_, fun k hLow hHigh => ?_⟩
      · have hHere : (m.stored l v).slots[v.slot]? =
            some (VType.ofTy v.ty) :=
          Array.getElem?_setIfInBounds_self_of_lt (by omega)
        dsimp only
        rw [Array.getD_eq_getD_getElem?, hHere]
        exact Nat.not_lt.mp hFits
      · rw [hOther k (Nat.ne_of_gt hLow)]
        exact hTops k hLow hHigh
  case isFalse hElse =>
      have hApart : ∀ k, w.slot ≤ k → k < w.slot + w.ty.width →
          k ≠ v.slot := by
        intro k hLow hHigh
        rcases Nat.lt_or_gt_of_ne hElse with hBefore | hBehind
        · have hOrder := hLaid.add_width_le_slot hNow hLocal hBefore
          omega
        · have hOrder := hLaid.add_width_le_slot hLocal hNow hBehind
          omega
      exact (hFilled i w hNow).of_same rfl rfl
        (Nat.le_of_eq hSize.symm) (fun h => hSize ▸ h)
        fun k hLow hHigh => hOther k (hApart k hLow hHigh)

/- What was known before a local was made says nothing of it. -/
theorem alloc_old
    (hFilled : m.FilledBy slots)
    (hSize : slots.size ≤ m.slots.size)
    (name : String)
    (ty : Ty)
    (start : Option Nat)
    (holds : VType) :
    (m.alloc name ty start holds).2.FilledBy slots := by
  intro i v hLocal
  simp only [MethodDraft.alloc, Array.getElem?_push] at hLocal
  split at hLocal
  case isTrue =>
      cases hLocal
      exact fun hThere => absurd hThere (Nat.not_lt.mpr hSize)
  case isFalse => exact hFilled i v hLocal

/- A new local leaves the slots of the others alone. -/
theorem alloc
    {ty : Ty}
    {holds : VType}
    (hFilled : m.FilledBy m.slots)
    (hLaid : m.Laid)
    (hFits : holds.slots ≤ ty.width)
    (name : String)
    (start : Option Nat) :
    (m.alloc name ty start holds).2.FilledBy
      (m.alloc name ty start holds).2.slots := by
  have hSize := m.size_alloc name ty start holds
  have hWidth := ty.width_eq
  have hSlots : ∀ k, (m.alloc name ty start holds).2.slots[k]? =
      if k < m.slots.size then m.slots[k]?
      else if k = m.slots.size then some holds
      else if k = m.slots.size + 1 ∧ ty.slots = 2 then some .top
      else none := by
    intro k
    simp only [MethodDraft.alloc]
    split
    case isTrue hTwo =>
        simp only [Array.getElem?_push, Array.size_push]
        grind
    case isFalse hOne =>
        simp only [Array.getElem?_push]
        grind
  intro i v hLocal
  simp only [MethodDraft.alloc, Array.getElem?_push] at hLocal
  split at hLocal
  case isTrue =>
      cases hLocal
      intro _
      refine ⟨Nat.le_of_eq hSize.symm, ?_, fun k hLow hHigh => ?_⟩
      · dsimp only
        rw [Array.getD_eq_getD_getElem?, hSlots,
          if_neg (Nat.lt_irrefl _), if_pos rfl]
        exact hFits
      · dsimp only at hLow hHigh
        have hMost := ty.width_le
        have hNext : k = m.slots.size + 1 := by omega
        rw [hSlots, if_neg (by omega), if_neg (by omega),
          if_pos ⟨hNext, by omega⟩]
  case isFalse =>
      have hWithin := hLaid.add_width_le hLocal
      have hPos := v.ty.width_pos
      refine (hFilled i v hLocal).of_same rfl rfl (by omega)
        (by omega) fun k _ hHigh => ?_
      rw [hSlots, if_pos (by omega)]

/- Locals made since then have unusable slots. -/
theorem resume
    (hFilled : m.FilledBy slots)
    (hLaid : m.Laid)
    (hSize : slots.size ≤ m.slots.size) :
    m.FilledBy (slots ++
      Array.replicate (m.slots.size - slots.size) .top) := by
  intro i v hLocal
  have hWithin := hLaid.add_width_le hLocal
  by_cases hThere : v.slot < slots.size
  · have hRange := (hFilled i v hLocal hThere).1
    refine (hFilled i v hLocal).of_same rfl rfl ?_ (fun _ => hThere)
      fun k _ hHigh => ?_
    · rw [Array.size_append]
      exact Nat.le_add_right _ _
    · rw [Array.getElem?_append_left (by omega)]
  · refine .of_tops ?_ fun k hLow hHigh => ?_
    · rw [Array.size_append, Array.size_replicate]
      omega
    · rw [Array.getElem?_append_right (by omega),
        Array.getElem?_replicate, if_pos (by omega)]

end FilledBy

------------------------------------------------------------
-- Padded Drafts
------------------------------------------------------------

/- Up to where a value too wide for its local may be stored. -/
def limit
    (m : MethodDraft)
    (l : Label) : Nat :=
  if (m.labelAt l).targeted then m.offset else m.offset + 1

theorem limit_le
    (m : MethodDraft)
    (l : Label) :
    m.limit l ≤ m.offset + 1 := by
  unfold limit
  split <;> omega

theorem offset_le_limit
    (m : MethodDraft)
    (l : Label) :
    m.offset ≤ m.limit l := by
  unfold limit
  split <;> omega

/-
  What is known here and at labels has its fillers, unless a
  local holds a value that is too wide for it.
-/
structure Padded
    (m : MethodDraft) : Prop where
  now : m.FilledBy m.slots ∨ m.Spoilt (m.offset + 1)
  entries : ∀ l, ∀ e ∈ (m.labelAt l).entry,
    m.FilledBy e.slots ∨ m.Spoilt (m.limit l)
  starts : ∀ (i : Nat) (v : LocalVar), m.locals[i]? = some v →
    ∀ x ∈ v.start, x ≤ m.offset

namespace Padded

variable {m m' : MethodDraft} {l : Label}

/- The labels know what they knew. -/
theorem of_same
    (hPadded : m.Padded)
    (hInherits : m.Inherits m')
    (hFilled : ∀ slots : Array VType, slots.size ≤ m.slots.size →
      m.FilledBy slots → m'.FilledBy slots)
    (hLaid : m.Laid)
    (hNow : m'.FilledBy m'.slots ∨ m'.Spoilt (m'.offset + 1))
    (hLabels : ∀ l, m'.labelAt l = m.labelAt l)
    (hLater : m.offset ≤ m'.offset)
    (hStarts : ∀ (i : Nat) (v : LocalVar), m'.locals[i]? = some v →
      ∀ x ∈ v.start, x ≤ m'.offset) :
    m'.Padded := by
  refine ⟨hNow, fun l e he => ?_, hStarts⟩
  rw [hLabels] at he
  have hFits := entry_le hLaid l.index he
  refine (hPadded.entries l e he).imp (hFilled _ hFits) fun hOld =>
    hOld.later hInherits ?_
  unfold limit
  rw [hLabels]
  split <;> omega

theorem of_since
    {change : VType → VType}
    {spare : Nat}
    (hPadded : m.Padded)
    (hLaid : m.Laid)
    (hSince : m.Since change spare m')
    (hMade : VType.Initializes change)
    (hTop : change .top = .top) :
    m'.Padded := by
  have hInherits := Inherits.of_since hSince
  refine hPadded.of_same hInherits
    (fun _ _ hFilled => hFilled.of_same hSince.locals) hLaid ?_
    (labelAt_congr hSince.labels) hSince.later ?_
  · refine hPadded.now.imp (fun hFilled => ?_) fun hOld =>
      hOld.later hInherits (Nat.succ_le_succ hSince.later)
    rw [hSince.slots]
    intro i v hLocal
    rw [hSince.locals] at hLocal
    exact (hFilled i v hLocal).map hMade hTop
  · intro i v hLocal x hStart
    rw [hSince.locals] at hLocal
    exact Nat.le_trans (hPadded.starts i v hLocal x hStart)
      hSince.later

theorem stored
    {l : Local}
    {v : LocalVar}
    (hPadded : m.Padded)
    (hLaid : m.Laid)
    (hLocal : m.locals[l.index]? = some v) :
    (m.stored l v).Padded := by
  have hInherits := Inherits.stored hLocal
  have hStarts : ∀ (i : Nat) (w : LocalVar),
      (m.stored l v).locals[i]? = some w →
        ∀ x ∈ w.start, x ≤ m.offset := by
    intro i w hNow x hStart
    rw [getElem?_stored hLocal] at hNow
    split at hNow
    case isTrue =>
        cases hNow
        have hOld := hPadded.starts l.index v hLocal
        cases hHeld : v.start with
        | none =>
            rw [hHeld] at hStart
            cases hStart
            exact Nat.le_refl _
        | some y =>
            rw [hHeld] at hStart
            cases hStart
            exact hOld x hHeld
    case isFalse => exact hPadded.starts i w hNow x hStart
  refine hPadded.of_same hInherits
    (fun _ _ hFilled => hFilled.stored hLocal) hLaid ?_
    (fun _ => rfl) (Nat.le_refl _) hStarts
  by_cases hMisfit : v.Misfit
  · have hHere := (getElem?_stored hLocal l.index).trans (if_pos rfl)
    have hStart : v.start.getD m.offset ∈
        (v.start <|> some m.offset) := by
      cases v.start <;> rfl
    exact Or.inr ⟨l.index, _, _, hHere, hMisfit, hStart,
      Nat.lt_succ_of_le (hStarts _ _ hHere _ hStart)⟩
  · refine hPadded.now.imp
      (fun hFilled => hFilled.store hLaid hLocal hMisfit) fun hOld =>
        hOld.later hInherits (Nat.le_refl _)

/- A new local holds nothing, or what fits into it. -/
theorem alloc
    {ty : Ty}
    {start : Option Nat}
    {holds : VType}
    (hPadded : m.Padded)
    (hLaid : m.Laid)
    (hFits : holds.slots ≤ ty.width)
    (hStart : ∀ x ∈ start, x ≤ m.offset)
    (name : String) :
    (m.alloc name ty start holds).2.Padded := by
  have hInherits := Inherits.alloc m name ty start holds
  refine hPadded.of_same hInherits
    (fun _ hSize hFilled => hFilled.alloc_old hSize _ _ _ _) hLaid ?_
    (fun _ => rfl) (Nat.le_refl _) ?_
  · exact hPadded.now.imp
      (fun hFilled => hFilled.alloc hLaid hFits _ _) fun hOld =>
        hOld.later hInherits (Nat.le_refl _)
  · intro i v hLocal x hHeld
    simp only [MethodDraft.alloc, Array.getElem?_push] at hLocal
    split at hLocal
    case isTrue =>
        cases hLocal
        exact hStart x hHeld
    case isFalse => exact hPadded.starts i v hLocal x hHeld

/- What a label is known for, if it is bound or jumped to here. -/
theorem known
    (hPadded : m.Padded)
    (hRecorded : m.Recorded)
    (l : Label) :
    m.FilledBy (m.known l).slots ∨ m.Spoilt (m.limit l) := by
  unfold MethodDraft.known
  cases hEntry : (m.labelAt l).entry with
  | some e => exact hPadded.entries l e hEntry
  | none =>
      have hNot : ¬ (m.labelAt l).targeted = true := by
        intro hTargeted
        have hSome := hRecorded.targeted l hTargeted
        rw [hEntry] at hSome
        cases hSome
      unfold limit
      rw [if_neg hNot]
      exact hPadded.now

/- One label is known for what it is known for here. -/
theorem of_known
    (hPadded : m.Padded)
    (hRecorded : m.Recorded)
    (hInherits : m.Inherits m')
    (hLocals : m'.locals = m.locals)
    (hNow : m'.FilledBy m'.slots ∨ m'.Spoilt (m'.offset + 1))
    (hEntries : ∀ k, (m'.labelAt k).entry =
      if l = k ∧ l.index < m.labels.size then some (m.known l)
      else (m.labelAt k).entry)
    (hLimit : ∀ k, m.limit k ≤ m'.limit k)
    (hLater : m.offset ≤ m'.offset) :
    m'.Padded := by
  refine ⟨hNow, fun k e he => ?_, fun i v hLocal x hStart => ?_⟩
  · have hOld : m.FilledBy e.slots ∨ m.Spoilt (m.limit k) := by
      rw [hEntries] at he
      split at he
      case isTrue hThis =>
          cases he
          rw [← hThis.1]
          exact hPadded.known hRecorded l
      case isFalse => exact hPadded.entries k e he
    exact hOld.imp (fun hFilled => hFilled.of_same hLocals)
      fun hSpoilt => hSpoilt.later hInherits (hLimit k)
  · rw [hLocals] at hLocal
    exact Nat.le_trans (hPadded.starts i v hLocal x hStart) hLater

theorem boundTo
    (hPadded : m.Padded)
    (hRecorded : m.Recorded)
    (hLaid : m.Laid)
    (l : Label) :
    (m.boundTo l).Padded := by
  have hInherits : m.Inherits (m.boundTo l) := .of_same rfl rfl
  have hFits : (m.known l).slots.size ≤ m.slots.size := by
    unfold MethodDraft.known
    cases hEntry : (m.labelAt l).entry with
    | none => exact Nat.le_refl _
    | some e => exact entry_le hLaid l.index hEntry
  refine hPadded.of_known (l := l) hRecorded hInherits rfl ?_ ?_ ?_
    (Nat.le_refl _)
  · refine (hPadded.known hRecorded l).imp (fun hFilled => ?_)
      fun hSpoilt => hSpoilt.later hInherits (m.limit_le l)
    exact (hFilled.resume hLaid hFits).of_same rfl
  · intro k
    rw [labelAt_boundTo]
    split <;> rfl
  · intro k
    unfold limit
    rw [m.targeted_labelAt_boundTo l k]
    exact Nat.le_refl _

theorem jump
    (hPadded : m.Padded)
    (hRecorded : m.Recorded)
    (opcode : Opcode)
    (l : Label) :
    (m.jump opcode l).Padded := by
  have hInherits : m.Inherits (m.jump opcode l) := .of_same rfl rfl
  have hLater : m.offset + 1 ≤ (m.jump opcode l).offset := by
    change m.offset + 1 ≤ m.offset + 3
    omega
  refine hPadded.of_known (l := l) hRecorded hInherits rfl ?_
    (m.entry_labelAt_jump opcode l) (fun k => ?_) (Nat.le_of_lt hLater)
  · exact hPadded.now.imp (fun hFilled => hFilled.of_same rfl)
      fun hSpoilt => hSpoilt.later hInherits (by omega)
  · exact Nat.le_trans (m.limit_le k)
      (Nat.le_trans hLater (offset_le_limit _ k))

end Padded

end MethodDraft

namespace Step

open MethodDraft

variable {m m' : MethodDraft} {s : Step} {steps : List Step}

/- No constructor is called on what is unusable. -/
def Sensible
    (m : MethodDraft)
    (s : Step) : Prop :=
  s.constructed? m ≠ some .top

instance
    (m : MethodDraft)
    (s : Step) :
    Decidable (s.Sensible m) :=
  inferInstanceAs (Decidable (s.constructed? m ≠ some .top))

theorem Turns.padded
    (hTurns : s.Turns m m')
    (hFault : m'.fault = none)
    (hSensible : s.Sensible m)
    (hLaid : m.Laid)
    (hRecorded : m.Recorded)
    (hPadded : m.Padded) :
    m'.Padded := by
  have hSince : ∀ {n : MethodDraft} {spare : Nat},
      m.Since id spare n → n.Padded := fun hSince =>
    hPadded.of_since hLaid hSince VType.initializes_id rfl
  cases hTurns with
  | passive _ hChanges =>
      exact hPadded.of_since hLaid hChanges.since hChanges.made
        (hChanges.tops hFault hSensible)
  | stored hLocal hTaken =>
      rw [← hTaken.locals] at hLocal
      exact (hSince hTaken).stored (hLaid.of_since hTaken) hLocal
  | missing => exact hPadded
  | @added name ty _ =>
      have hFits : VType.top.slots ≤ ty.width := ty.width_pos
      exact hPadded.alloc hLaid hFits (by rintro x ⟨⟩) name
  | full => exact hPadded
  | labelled =>
      exact hPadded.of_same (.of_same rfl rfl)
        (fun _ _ hFilled => hFilled) hLaid
        (hPadded.now.imp id fun hOld =>
          hOld.later (.of_same rfl rfl) (Nat.le_refl _))
        (labelAt_push m) (Nat.le_refl _) hPadded.starts
  | @bound l =>
      rcases m.bind_cases l with hBlame | hBound
      · rw [hBlame] at hFault
        exact absurd hFault (m.fault_blame _)
      · rw [hBound]
        exact hPadded.boundTo hRecorded hLaid l
  | jumped _ hTaken =>
      exact (hSince hTaken).jump (hRecorded.of_since hTaken) _ _
  | left _ hTaken =>
      have hJumped :=
        (hSince hTaken).jump (hRecorded.of_since hTaken)
      exact (hJumped _ _).of_since ((hLaid.of_since hTaken).jump _ _)
        (Since.refl _).terminate VType.initializes_id rfl

theorem padded_runAll
    (hFault : (runAll steps m).fault = none)
    (hSensible : Always Sensible steps m)
    (hLaid : m.Laid)
    (hRecorded : m.Recorded)
    (hPadded : m.Padded) :
    (runAll steps m).Padded := by
  induction steps generalizing m with
  | nil => exact hPadded
  | cons s steps ih =>
      have hTurns := turns_apply s m
      rcases adds_runAll steps (s.apply m) with ⟨ls, hAdds⟩
      exact ih hFault hSensible.2 (hTurns.laid hLaid)
        (hTurns.recorded hRecorded)
        (hTurns.padded (hAdds.fault hFault) hSensible.1 hLaid hRecorded
          hPadded)

end Step

------------------------------------------------------------
-- Methods
------------------------------------------------------------

/- A type with a descriptor has no values too wide for it. -/
theorem VType.slots_ofTy_le_width
    {t : Ty}
    {d : String}
    (hDescriptor : t.descriptor = .ok d) :
    (VType.ofTy t).slots ≤ t.width := by
  cases t with
  | primitive p => cases p <;> decide
  | array t =>
      unfold VType.ofTy
      split <;> exact Nat.le_refl 1
  | object c => exact Nat.le_refl 1
  | «variable» x => exact Nat.le_refl 1
  | argument a => cases hDescriptor

namespace ClassDraft

variable {flags : UInt16} {name : String} {signature : MethodSig}
variable {paramNames : List String} {c : ClassDraft}
variable {m : MethodDraft}

theorem exists_descriptor
    {d : String}
    {t : Ty}
    (hDescriptor : signature.descriptor = .ok d)
    (hIn : t ∈ signature.params) :
    ∃ text, t.descriptor = .ok text := by
  unfold MethodSig.descriptor at hDescriptor
  rcases ok_bind.mp hDescriptor with ⟨texts, hTexts, -⟩
  rcases exists_ok_of_mapM hTexts hIn with ⟨text, -, hText⟩
  exact ⟨text, hText⟩

/- The locals of a new method have their fillers. -/
theorem padded_method
    (hMethod : c.method flags name signature paramNames = .ok m) :
    m.Padded := by
  have hSignature := (header_method hMethod).1
  refine (method_induct (P := fun _ m => m.Laid ∧ m.Padded) hMethod
    ?_ ?_ ?_).2
  · intro descriptor generic _
    refine ⟨⟨ConstantPool.sound_empty, ?_, rfl, Nat.zero_le _, ?_⟩,
      Or.inl ?_, fun l e he => ?_, ?_⟩
    · intro i v hLocal
      simp at hLocal
    · intro l hl
      simp at hl
    · intro i v hLocal
      simp at hLocal
    · simp [MethodDraft.labelAt] at he
    · intro i v hLocal
      simp at hLocal
  · rintro m holds hRoom hHolds ⟨hLaid, hPadded⟩
    refine ⟨MethodDraft.Sound.alloc hLaid hRoom,
      hPadded.alloc hLaid ?_ ?_ _⟩
    · rcases hHolds with rfl | rfl
      · exact Nat.le_refl 1
      · exact Nat.le_refl 1
    · rintro x ⟨⟩
      exact Nat.zero_le _
  · rintro done m name t hIn hRoom ⟨hLaid, hPadded⟩
    rcases exists_descriptor hSignature hIn with ⟨d, hText⟩
    refine ⟨MethodDraft.Sound.alloc hLaid hRoom,
      hPadded.alloc hLaid (VType.slots_ofTy_le_width hText) ?_ name⟩
    rintro x ⟨⟩
    exact Nat.zero_le _

end ClassDraft

namespace MethodDraft

variable {m : MethodDraft}

/- Every slot belongs to a local. -/
theorem Laid.exists_local
    {k : Nat}
    (hLaid : m.Laid)
    (hIn : k < m.slots.size) :
    ∃ (i : Nat) (v : LocalVar), m.locals[i]? = some v ∧
      v.slot ≤ k ∧ k < v.slot + v.ty.width := by
  have hSmall : m.slots.size ≤ 65535 := hLaid.small
  have hRange : k ∈ List.range m.maxLocals.toNat := by
    rw [List.mem_range, maxLocals, UInt16.toNat_ofNat',
      Nat.mod_eq_of_lt (Nat.lt_succ_of_le hSmall)]
    exact hIn
  rw [← hLaid.tile] at hRange
  rcases List.mem_flatMap.mp hRange with ⟨v, hThere, hSlot⟩
  rcases List.getElem?_of_mem hThere with ⟨i, hAt⟩
  rw [Array.getElem?_toList] at hAt
  exact ⟨i, v, hAt, List.mem_range'_1.mp hSlot⟩

/- If locals have their slots, no type of two lacks its filler. -/
theorem FilledBy.filled
    {s : Snapshot}
    (hFilled : m.FilledBy s.slots)
    (hLaid : m.Laid)
    (hSize : s.slots.size ≤ m.slots.size) :
    s.Filled := by
  intro k u hSlot hTwo
  rcases Array.getElem?_eq_some_iff.mp hSlot with ⟨hIn, -⟩
  rcases hLaid.exists_local (Nat.lt_of_lt_of_le hIn hSize) with
    ⟨i, v, hLocal, hLow, hHigh⟩
  rcases hFilled i v hLocal (Nat.lt_of_le_of_lt hLow hIn) with
    ⟨-, hWide, hTops⟩
  rcases Nat.eq_or_lt_of_le hLow with rfl | hBehind
  · rw [Array.getD_eq_getD_getElem?, hSlot, Option.getD_some, hTwo]
      at hWide
    exact hTops (v.slot + 1) (Nat.lt_succ_self _) (by omega)
  · rw [hTops k hBehind hHigh] at hSlot
    cases hSlot
    cases hTwo

/- A table of locals lists none that is too narrow. -/
theorem not_misfit_of_localEntries
    {size : Nat}
    {vs : List LocalVar}
    {entries : List LocalVariable}
    {p q : ConstantPool}
    {v : LocalVar}
    {start : Nat}
    (hRun : Yields (localEntries size vs) p entries q)
    (hIn : v ∈ vs)
    (hStart : start ∈ v.start)
    (hEarly : start < size) :
    ¬ v.Misfit := by
  induction vs generalizing p entries q with
  | nil => cases hIn
  | cons w vs ih =>
      unfold localEntries at hRun
      rcases List.mem_cons.mp hIn with rfl | hRest
      · rw [Option.mem_def] at hStart
        simp only [hStart, if_pos hEarly, yields_bind] at hRun
        rcases hRun with ⟨entry, _, hEntry, -⟩
        simp only [localEntry, yields_bind] at hEntry
        rcases hEntry with ⟨_, _, -, hText⟩
        cases hDescriptor : v.ty.descriptor with
        | error e =>
            rw [hDescriptor] at hText
            exact absurd hText yields_throw
        | ok d =>
            exact Nat.not_lt.mpr
              (VType.slots_ofTy_le_width hDescriptor)
      · split at hRun
        case h_1 =>
            split at hRun
            case isTrue =>
                simp only [yields_bind] at hRun
                rcases hRun with ⟨_, _, -, more, _, hMore, -⟩
                exact ih hMore hRest
            case isFalse => exact ih hRun hRest
        case h_2 => exact ih hRun hRest

end MethodDraft

end Stratagem

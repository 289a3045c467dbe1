import Stratagem.Assembly.ClassDraft
import Stratagem.Proofs.Assembly.Calls
import Stratagem.Proofs.ClassFile.Acceptance

/-
  Drafts whose code is understood.

  While a draft is written, what can be said of its code is
  kept: it flows from the state on entry to the state at its
  end, and the draft knows how high the stack gets.

  Key definitions include:
    * `Spelled`
    * `Stretch`
    * `Charted`

  Main declarations:
    * `Spelled.continues`
    * `Spelled.skips`
    * `Charted.stretch`
    * `Charted.skips`
-/

namespace Stratagem

open Jvm

------------------------------------------------------------
-- Resolved Lines
------------------------------------------------------------

section Resolved

variable {method : String} {labels : Array LabelState}

theorem resolve_append
    {ls : List Line}
    {is : List Instruction}
    (js : List Instruction)
    (hFirst : ls.mapM (Line.resolve method labels) = .ok is) :
    (ls ++ js.map Line.instruction).mapM
      (Line.resolve method labels) = .ok (is ++ js) := by
  have hRest : (js.map Line.instruction).mapM
      (Line.resolve method labels) = .ok js := by
    induction js with
    | nil => rfl
    | cons j js ih =>
        rw [List.map_cons, List.mapM_cons, ih]
        rfl
  rw [List.mapM_append, hFirst, hRest]
  rfl

/- A new label leaves the lines as they were. -/
theorem resolve_push
    {ls : List Line}
    {is : List Instruction}
    (state : LabelState)
    (hResolve : ls.mapM (Line.resolve method labels) = .ok is) :
    ls.mapM (Line.resolve method (labels.push state)) =
      .ok is := by
  have hLine : ∀ (l : Line) (i : Instruction),
      l.resolve method labels = .ok i →
        l.resolve method (labels.push state) = .ok i := by
    intro l i hOne
    cases l with
    | instruction j => exact hOne
    | jump offset opcode l =>
        have hSame : ∀ target,
            (labels.getD l.index {}).offset = some target →
            (labels.push state).getD l.index {} =
              labels.getD l.index {} := by
          intro target hBound
          by_cases hThere : l.index < labels.size
          · simp only [Array.getD_eq_getD_getElem?,
              Array.getElem?_push_lt hThere]
            simp [hThere]
          · rw [Array.getD_eq_getD_getElem?,
              Array.getElem?_eq_none (Nat.not_lt.mp hThere)]
              at hBound
            cases hBound
        unfold Line.resolve at hOne ⊢
        dsimp only at hOne ⊢
        split at hOne
        case h_1 => cases hOne
        case h_2 target hBound =>
            rw [hSame target hBound, hBound]
            exact hOne
  induction ls generalizing is with
  | nil => exact hResolve
  | cons l ls ih =>
      simp only [List.mapM_cons, ok_bind] at hResolve ⊢
      rcases hResolve with ⟨i, hOne, js, hRest, hEnd⟩
      exact ⟨i, hLine l i hOne, js, ih hRest, hEnd⟩

end Resolved

theorem sizes_append
    (is js : List Instruction) :
    Instruction.sizes (is ++ js) =
      Instruction.sizes is + Instruction.sizes js := by
  simp [Instruction.sizes]

/- Points follow one another as their instructions do. -/
theorem LaidOut.chained
    {p : ConstantPool}
    {offset : Nat}
    {is : List Instruction}
    {points : List CodePoint}
    (hLaid : LaidOut offset is)
    (hLinked : Linked p is points) :
    Chained offset points (offset + Instruction.sizes is) := by
  induction is generalizing offset points with
  | nil =>
      cases points with
      | nil => rfl
      | cons q points => cases hLinked
  | cons i is ih =>
      cases points with
      | nil => cases hLinked
      | cons q points =>
          rcases List.cons.inj hLinked with ⟨hOne, hMore⟩
          rcases Option.map_eq_some_iff.mp hOne with ⟨a, -, rfl⟩
          rcases hLaid with ⟨rfl, -, hRest⟩
          refine ⟨rfl, i.offset_lt_next, ?_⟩
          have hChained := ih hRest hMore
          rw [Instruction.next, Nat.add_assoc] at hChained
          exact hChained

/- Instructions with known actions have points. -/
theorem LaidOut.exists_points
    {p : ConstantPool}
    {offset : Nat}
    {is : List Instruction}
    {as : List Action}
    (hLaid : LaidOut offset is)
    (hActions : is.map (Instruction.action? p) = as.map some) :
    ∃ points, Linked p is points ∧
      points.map CodePoint.action = as ∧
      Chained offset points (offset + Instruction.sizes is) := by
  have hPoints : ∃ points, Linked p is points ∧
      points.map CodePoint.action = as := by
    clear hLaid
    induction is generalizing as with
    | nil =>
        cases as with
        | nil => exact ⟨[], rfl, rfl⟩
        | cons a as => cases hActions
    | cons i is ih =>
        cases as with
        | nil => cases hActions
        | cons a as =>
            rcases List.cons.inj hActions with ⟨hOne, hRest⟩
            rcases ih hRest with ⟨points, hLinked, rfl⟩
            refine ⟨⟨i.offset, i.next, a,
              i.target?.bind Int.toNat?⟩ :: points, ?_, rfl⟩
            unfold Linked at hLinked ⊢
            rw [List.map_cons, List.map_cons, hLinked,
              Instruction.point?, hOne]
            rfl
  rcases hPoints with ⟨points, hLinked, hSame⟩
  exact ⟨points, hLinked, hSame, hLaid.chained hLinked⟩

theorem Linked.append
    {p : ConstantPool}
    {is js : List Instruction}
    {code code' : List CodePoint}
    (hFirst : Linked p is code)
    (hNext : Linked p js code') :
    Linked p (is ++ js) (code ++ code') := by
  unfold Linked at hFirst hNext ⊢
  rw [List.map_append, List.map_append, hFirst, hNext]

------------------------------------------------------------
-- Spelled Drafts
------------------------------------------------------------

/- The lines of a draft become instructions with points. -/
def Spelled
    (m : MethodDraft)
    (points : List CodePoint) : Prop :=
  ∃ is, m.resolve = .ok is ∧ LaidOut 0 is ∧
    m.offset = Instruction.sizes is ∧ Linked m.pool is points

/- A draft became another by instructions with points. -/
def Continues
    (m m' : MethodDraft)
    (points : List CodePoint) : Prop :=
  ∃ is, m'.lines.toList =
      m.lines.toList ++ is.map Line.instruction ∧
    LaidOut m.offset is ∧
    m'.offset = m.offset + Instruction.sizes is ∧
    Linked m'.pool is points

/- A draft without code. -/
theorem MethodDraft.Blank.spelled
    {m : MethodDraft}
    {ts : List Ty}
    (hBlank : m.Blank ts) :
    Spelled m [] := by
  refine ⟨[], ?_, trivial, hBlank.offset, rfl⟩
  unfold MethodDraft.resolve
  rw [hBlank.lines]
  rfl

theorem header_name
    {m m' : MethodDraft}
    (hHeader : m'.header = m.header) :
    m'.name = m.name := by
  simp only [MethodDraft.header, Prod.mk.injEq] at hHeader
  exact hHeader.2.2.2.1

theorem header_isStatic
    {m m' : MethodDraft}
    (hHeader : m'.header = m.header) :
    m'.isStatic = m.isStatic := by
  simp only [MethodDraft.header, Prod.mk.injEq] at hHeader
  rw [MethodDraft.isStatic, MethodDraft.isStatic, hHeader.2.2.1]

/- Written actions have points, from one end to the other. -/
theorem Emits.continues
    {m m' : MethodDraft}
    {as : List Action}
    {ts : List Ty}
    (hEmits : Emits m as ts m') :
    ∃ points, Continues m m' points ∧
      points.map CodePoint.action = as ∧
      Chained m.offset points m'.offset := by
  rcases hEmits.code with ⟨is, hLines, hLaid, hEnd, hActions⟩
  rcases hLaid.exists_points hActions with
    ⟨points, hLinked, hSame, hChained⟩
  rw [← hEnd] at hChained
  exact ⟨points, ⟨is, hLines, hLaid, hEnd, hLinked⟩, hSame,
    hChained⟩

/- More instructions behind those that are spelled. -/
theorem Spelled.continues
    {m m' : MethodDraft}
    {points more : List CodePoint}
    (hSpelled : Spelled m points)
    (hGrown : m.pool.Grown m'.pool)
    (hHeader : m'.header = m.header)
    (hLabels : m'.labels = m.labels)
    (hMore : Continues m m' more) :
    Spelled m' (points ++ more) := by
  rcases hSpelled with ⟨is, hResolve, hLaid, hEnd, hLinked⟩
  rcases hMore with ⟨js, hLines, hLaid', hEnd', hLinked'⟩
  refine ⟨is ++ js, ?_, ?_, ?_, ?_⟩
  · unfold MethodDraft.resolve at hResolve ⊢
    rw [hLines, hLabels, header_name hHeader]
    exact resolve_append js hResolve
  · refine hLaid.append ?_
    rw [Nat.zero_add, ← hEnd]
    exact hLaid'
  · rw [hEnd', hEnd, sizes_append]
  · exact (hLinked.within hGrown.within).append hLinked'

------------------------------------------------------------
-- Stretches of Code
------------------------------------------------------------

/-
  The code by which a draft became another.  It starts in a
  state, and its end is reached in the state `after`, or not at
  all.
-/
structure Stretch
    (frame : MethodFrame)
    (m : MethodDraft)
    (s : TypeState)
    (m' : MethodDraft)
    (after : Option TypeState) : Prop where
  grown : m.pool.Grown m'.pool
  header : m'.header = m.header
  labels : m'.labels = m.labels
  types : ∃ ts, m'.types = m.types ++ ts
  higher : m.maxStack.toNat ≤ m'.maxStack.toNat
  tracks : ∀ s', after = some s' → m'.Tracks s'.stack
  code : ∃ is points,
    m'.lines.toList = m.lines.toList ++ is.map Line.instruction ∧
    LaidOut m.offset is ∧
    m'.offset = m.offset + Instruction.sizes is ∧
    Linked m'.pool is points ∧
    Flow frame m'.maxStack.toNat m.offset s points m'.offset
      after ∧
    LocalsWithin (Ty.widths m'.types) points

section Stretches

variable {frame : MethodFrame} {m m₁ m' : MethodDraft}
variable {s s₁ s' : TypeState} {after : Option TypeState}
variable {as : List Action} {ts : List Ty}

theorem Emits.locals_within
    {points : List CodePoint}
    (hEmits : Emits m as ts m')
    (hActions : points.map CodePoint.action = as) :
    LocalsWithin (Ty.widths m'.types) points := by
  intro q hIn slot width hSlot
  refine hEmits.range q.action ?_ slot width hSlot
  rw [← hActions]
  exact List.mem_map_of_mem hIn

/- Actions that all go on. -/
theorem Emits.stretch
    (hEmits : Emits m as ts m')
    (hTracks : m.Tracks s.stack)
    (hPasses : Passes frame 65535 s as s') :
    Stretch frame m s m' (some s') := by
  rcases hEmits.follows frame s s' hTracks hPasses with
    ⟨hTracks', hLow⟩
  rcases hEmits.code with ⟨is, hLines, hLaid, hEnd, hActions⟩
  rcases hLaid.exists_points hActions with
    ⟨points, hLinked, hSame, hChained⟩
  refine ⟨hEmits.grown, hEmits.header, hEmits.labels,
    ⟨ts, hEmits.types⟩, hEmits.higher, ?_, is, points, hLines,
    hLaid, hEnd, hLinked, ?_, hEmits.locals_within hSame⟩
  · intro r hAfter
    cases hAfter
    exact hTracks'
  · rw [hEnd]
    exact hLow.flow hChained hSame

/-
  One action that ends the code.  It pushes nothing, so the
  stack is not higher than before.
-/
theorem Emits.lastStretch
    {a : Action}
    (hEmits : Emits m [a] ts m')
    (hTracks : m.Tracks s.stack)
    (hCheck : a.check frame s = some s')
    (hLast : a.isTerminator = true)
    (hPlain : a.isJump = false) :
    Stretch frame m s m' none := by
  rcases hEmits.code with ⟨is, hLines, hLaid, hEnd, hActions⟩
  rcases hLaid.exists_points hActions with
    ⟨points, hLinked, hSame, hChained⟩
  refine ⟨hEmits.grown, hEmits.header, hEmits.labels,
    ⟨ts, hEmits.types⟩, hEmits.higher, nofun, is, points, hLines,
    hLaid, hEnd, hLinked, ?_, hEmits.locals_within hSame⟩
  have hLow : s'.height ≤ m'.maxStack.toNat := by
    rcases Action.effect?_of_check hCheck with
      ⟨base, pops, pushes, hEffect, hBefore, hAfter⟩
    have hNone : pushes = 0 := by
      cases a with
      | jump c => cases hPlain
      | returnValue f =>
          cases hEffect
          rfl
      | returnVoid =>
          cases hEffect
          rfl
      | throw =>
          cases hEffect
          rfl
      | _ => cases hLast
    have hDepth : m.depth.toNat = s.height := hTracks.depth
    have hHigh := hTracks.high
    have hHigher := hEmits.higher
    omega
  cases points with
  | nil => cases hSame
  | cons q points =>
      rcases List.cons.inj hSame with ⟨rfl, hNil⟩
      cases List.map_eq_nil_iff.mp hNil
      rcases hChained with ⟨hStart, hSize, hStop⟩
      rw [hEnd, ← hStop, ← hStart]
      exact Flow.stopAt hSize hCheck hLow hLast hPlain

theorem Stretch.widths_le
    (hStretch : Stretch frame m s m' after) :
    Ty.widths m.types ≤ Ty.widths m'.types := by
  rcases hStretch.types with ⟨ts, hTypes⟩
  rw [hTypes, Ty.widths_append]
  omega

theorem LocalsWithin.mono
    {limit limit' : Nat}
    {points : List CodePoint}
    (hLimit : limit ≤ limit')
    (hWithin : LocalsWithin limit points) :
    LocalsWithin limit' points := by
  intro q hIn slot width hSlot
  exact Nat.le_trans (hWithin q hIn slot width hSlot) hLimit

theorem LocalsWithin.append
    {limit : Nat}
    {points points' : List CodePoint}
    (hFirst : LocalsWithin limit points)
    (hNext : LocalsWithin limit points') :
    LocalsWithin limit (points ++ points') := by
  intro q hIn
  rcases List.mem_append.mp hIn with hOne | hTwo
  · exact hFirst q hOne
  · exact hNext q hTwo

theorem LocalsWithin.cons
    {limit : Nat}
    {q : CodePoint}
    {points : List CodePoint}
    (hNone : q.action.slot? = none)
    (hWithin : LocalsWithin limit points) :
    LocalsWithin limit (q :: points) := by
  intro r hIn slot width hSlot
  rcases List.mem_cons.mp hIn with rfl | hTail
  · rw [hNone] at hSlot
    cases hSlot
  · exact hWithin r hTail slot width hSlot

theorem Stretch.trans
    (hFirst : Stretch frame m s m₁ (some s₁))
    (hNext : Stretch frame m₁ s₁ m' after) :
    Stretch frame m s m' after := by
  rcases hFirst.types with ⟨ts, hTypes⟩
  rcases hNext.types with ⟨us, hTypes'⟩
  rcases hFirst.code with
    ⟨is, points, hLines, hLaid, hEnd, hLinked, hFlow, hWithin⟩
  rcases hNext.code with ⟨js, points', hLines', hLaid', hEnd',
    hLinked', hFlow', hWithin'⟩
  refine ⟨hFirst.grown.trans hNext.grown,
    hNext.header.trans hFirst.header,
    hNext.labels.trans hFirst.labels, ⟨ts ++ us, ?_⟩,
    Nat.le_trans hFirst.higher hNext.higher, hNext.tracks,
    is ++ js, points ++ points', ?_, ?_, ?_, ?_, ?_, ?_⟩
  · rw [hTypes', hTypes, List.append_assoc]
  · rw [hLines', hLines, List.map_append, List.append_assoc]
  · rw [hEnd] at hLaid'
    exact hLaid.append hLaid'
  · rw [hEnd', hEnd, sizes_append, Nat.add_assoc]
  · exact (hLinked.within hNext.grown.within).append hLinked'
  · exact (hFlow.mono hNext.higher).append hFlow'
  · exact (hWithin.mono hNext.widths_le).append hWithin'

end Stretches

------------------------------------------------------------
-- Charted Drafts
------------------------------------------------------------

/-
  A draft whose code is known from its start to its end.  Its
  labels are bound, and nothing was on the stack where a jump
  to one was written.
-/
structure Charted
    (frame : MethodFrame)
    (s₀ : TypeState)
    (m : MethodDraft)
    (after : Option TypeState) : Prop where
  sound : m.Sound
  tracks : ∀ s, after = some s → m.Tracks s.stack
  fewLabels : 4 * m.labels.size ≤ m.offset
  entries : ∀ state ∈ m.labels.toList, ∀ entry,
    state.entry = some entry → entry.stack = []
  code : ∃ is points,
    m.resolve = .ok is ∧
    LaidOut 0 is ∧
    m.offset = Instruction.sizes is ∧
    Linked m.pool is points ∧
    Flow frame m.maxStack.toNat 0 s₀ points m.offset after ∧
    LocalsWithin (Ty.widths m.types) points

section Charts

variable {frame : MethodFrame} {s₀ s : TypeState}
variable {m m' : MethodDraft} {after : Option TypeState}

/- More code behind the code that is known. -/
theorem Charted.stretch
    (hChart : Charted frame s₀ m (some s))
    (hSound : m'.Sound)
    (hStretch : Stretch frame m s m' after) :
    Charted frame s₀ m' after := by
  rcases hChart.code with
    ⟨is, points, hResolve, hLaid, hEnd, hLinked, hFlow, hWithin⟩
  rcases hStretch.code with ⟨js, points', hLines, hLaid', hEnd',
    hLinked', hFlow', hWithin'⟩
  have hLabels := hStretch.labels
  have hSpelled : Spelled m points :=
    ⟨is, hResolve, hLaid, hEnd, hLinked⟩
  rcases hSpelled.continues hStretch.grown hStretch.header hLabels
      ⟨js, hLines, hLaid', hEnd', hLinked'⟩ with
    ⟨ks, hResolve₂, hLaid₂, hEnd₂, hLinked₂⟩
  refine ⟨hSound, hStretch.tracks, ?_, ?_, ks,
    points ++ points', hResolve₂, hLaid₂, hEnd₂, hLinked₂, ?_, ?_⟩
  · have hFew := hChart.fewLabels
    rw [hLabels, hEnd']
    omega
  · rw [hLabels]
    exact hChart.entries
  · exact (hFlow.mono hStretch.higher).append hFlow'
  · exact (hWithin.mono hStretch.widths_le).append hWithin'

end Charts

------------------------------------------------------------
-- Jumps
------------------------------------------------------------

theorem Instruction.Legal.size_le
    {i : Instruction}
    (hLegal : i.Legal) :
    i.size ≤ 5 := by
  have hOperands : ∀ op : Opcode, op.operandSize ≤ 4 := by
    intro op
    unfold Opcode.operandSize
    split <;> first | omega | (split <;> omega)
  unfold Instruction.Legal at hLegal
  unfold Instruction.size
  split at hLegal
  case isTrue hWide =>
      rw [if_pos hWide, hLegal.2]
      omega
  case isFalse hNarrow =>
      have hFew := hOperands i.opcode
      rw [if_neg hNarrow, hLegal.2]
      omega

theorem LaidOut.sizes_le
    {offset : Nat}
    {is : List Instruction}
    (hLaid : LaidOut offset is) :
    Instruction.sizes is ≤ 5 * is.length := by
  induction is generalizing offset with
  | nil => exact Nat.le_refl 0
  | cons i is ih =>
      rcases hLaid with ⟨-, hLegal, hRest⟩
      have hOne := hLegal.size_le
      have hMore := ih hRest
      simp only [Instruction.sizes, List.map_cons, List.sum_cons,
        List.length_cons] at hMore ⊢
      omega

/- Every action takes from one byte to five. -/
theorem Emits.offset_bounds
    {m m' : MethodDraft}
    {as : List Action}
    {ts : List Ty}
    (hEmits : Emits m as ts m') :
    m.offset + as.length ≤ m'.offset ∧
      m'.offset ≤ m.offset + 5 * as.length := by
  rcases hEmits.code with ⟨is, -, hLaid, hEnd, hActions⟩
  have hLength := congrArg List.length hActions
  rw [List.length_map, List.length_map] at hLength
  have hLeast : ∀ js : List Instruction,
      js.length ≤ Instruction.sizes js := by
    intro js
    induction js with
    | nil => exact Nat.le_refl 0
    | cons j js ih =>
        have hOne : 1 ≤ j.size := by
          unfold Instruction.size
          split <;> omega
        simp only [Instruction.sizes, List.map_cons, List.sum_cons,
          List.length_cons] at ih ⊢
        omega
  have hMost := hLaid.sizes_le
  have hMore := hLeast is
  omega

/- The instruction that jumps so far unless it finds null. -/
def Instruction.skipNonNull
    (offset distance : Nat) : Instruction :=
  { offset
    opcode := .ifnonnull
    operands := be16 (Int16.ofInt distance).toUInt16 }

theorem Instruction.point?_skipNonNull
    (p : ConstantPool)
    (offset : Nat)
    {distance : Nat}
    (hNear : distance ≤ 32767) :
    (skipNonNull offset distance).point? p =
      some { offset
             next := offset + 3
             action := .jump .ifNonNull
             target := some (offset + distance) } := by
  have hWord : (skipNonNull offset distance).word? =
      some (Int16.ofInt distance).toUInt16 :=
    Instruction.word?_be16 [] (by simp [skipNonNull])
  have hBack : (Int16.ofInt distance).toUInt16.toInt16.toInt =
      distance := by
    rw [Int16.toInt16_toUInt16]
    exact Int16.toInt_ofInt_of_le (by omega) (by omega)
  have hTarget : (skipNonNull offset distance).target? =
      some (offset + distance : Int) := by
    simp only [Instruction.target?, hWord, Option.map_some, hBack]
    rfl
  have hNat : Int.toNat? (offset + distance : Int) =
      some (offset + distance) := rfl
  unfold Instruction.point?
  rw [hTarget, Option.bind_some, hNat]
  rfl

theorem Line.resolve_jump
    {method : String}
    {labels : Array LabelState}
    {l : Label}
    (offset : Nat)
    {distance : Nat}
    (hBound : (labels.getD l.index {}).offset =
      some (offset + distance))
    (hNear : distance ≤ 32767) :
    (Line.jump offset .ifnonnull l).resolve method labels =
      .ok (.skipNonNull offset distance) := by
  have hSame : ((offset + distance : Nat) : Int) - offset =
      distance := by
    omega
  unfold Line.resolve
  simp only [hBound, hSame]
  rw [if_pos (by omega)]
  rfl

section Skips

variable {frame : MethodFrame} {s₀ s : TypeState}
variable {m m₂ m₄ : MethodDraft}

/- What the slots held is held when the same locals are left. -/
theorem MethodDraft.Held.transport
    {m m' : MethodDraft}
    (hHeld : m.Held)
    (hSound : m.Sound)
    (hSound' : m'.Sound)
    (hTypes : m'.types = m.types)
    (hSlots : ∀ (k : Nat) (w : VType), m'.slots[k]? = some w →
      w = .top ∨ m.slots[k]? = some w) :
    m'.Held := by
  intro i v w hv hw
  rcases hSlots v.slot w hw with hTop | hSame
  · exact Or.inl hTop
  · have hType : m.types[i]? = some v.ty := by
      rw [← hTypes, Sound.types_getElem?, hv]
      rfl
    rw [Sound.types_getElem?] at hType
    rcases Option.map_eq_some_iff.mp hType with ⟨u, hu, hTy⟩
    have hSlot : u.slot = v.slot := by
      rw [hSound.placed i u hu, hSound'.placed i v hv, hTypes]
    rw [← hTy]
    exact hHeld i u w hu (by rw [hSlot]; exact hSame)

/- A label that was made last is the last of all labels. -/
theorem setIfInBounds_push
    {α : Type}
    (xs : Array α)
    (x y : α) :
    (xs.push x).setIfInBounds xs.size y = xs.push y := by
  rw [Array.setIfInBounds_def, dif_pos (by simp), Array.set_push]
  simp

theorem getD_push
    {α : Type}
    (xs : Array α)
    (x y : α) :
    (xs.push x).getD xs.size y = x := by
  simp

/- Lines with a jump to the last label. -/
theorem resolve_skip
    {method : String}
    {labels : Array LabelState}
    {state : LabelState}
    {ls : List Line}
    {is : List Instruction}
    {offset distance : Nat}
    (js ks : List Instruction)
    (hResolve : ls.mapM (Line.resolve method labels) = .ok is)
    (hTarget : state.offset = some (offset + distance))
    (hNear : distance ≤ 32767) :
    (ls ++ js.map Line.instruction ++
      Line.jump offset .ifnonnull ⟨labels.size⟩ ::
        ks.map Line.instruction).mapM
      (Line.resolve method (labels.push state)) =
        .ok (is ++ js ++ .skipNonNull offset distance :: ks) := by
  have hStart := resolve_append js (resolve_push state hResolve)
  have hBound : ((labels.push state).getD labels.size {}).offset =
      some (offset + distance) := by
    rw [getD_push, hTarget]
  have hEnd : (ks.map Line.instruction).mapM
      (Line.resolve method (labels.push state)) = .ok ks := by
    have hNone : ([] : List Line).mapM
        (Line.resolve method (labels.push state)) = .ok [] := rfl
    exact resolve_append ks hNone
  rw [List.mapM_append, hStart, List.mapM_cons, hEnd,
    Line.resolve_jump (l := ⟨labels.size⟩) offset hBound hNear]
  rfl

/-
  A jump that takes what it tests: three bytes behind the code
  that there was, and nothing else that is written down.
-/
theorem MethodDraft.lines_jump_pop
    (m : MethodDraft)
    (opcode : Opcode)
    (l : Label) :
    (m.pop.2.jump opcode l).lines.toList =
      m.lines.toList ++ [.jump m.offset opcode l] := by
  have hSame := (SameCode.refl m).pop
  rw [← hSame.lines, ← hSame.offset]
  exact Array.toList_push

theorem MethodDraft.offset_jump_pop
    (m : MethodDraft)
    (opcode : Opcode)
    (l : Label) :
    (m.pop.2.jump opcode l).offset = m.offset + 3 := by
  rw [← (SameCode.refl m).pop.offset]
  rfl

theorem MethodDraft.pool_jump_pop
    (m : MethodDraft)
    (opcode : Opcode)
    (l : Label) :
    (m.pop.2.jump opcode l).pool = m.pool :=
  (SameCode.refl m).pop.pool

theorem MethodDraft.header_jump_pop
    (m : MethodDraft)
    (opcode : Opcode)
    (l : Label) :
    (m.pop.2.jump opcode l).header = m.header :=
  (SameCode.refl m).pop.header

theorem MethodDraft.types_jump_pop
    (m : MethodDraft)
    (opcode : Opcode)
    (l : Label) :
    (m.pop.2.jump opcode l).types = m.types :=
  (SameCode.refl m).pop.types

theorem labels_jump
    {labels : Array LabelState}
    (opcode : Opcode)
    (hLabels : m.labels = labels.push {}) :
    (m.jump opcode ⟨labels.size⟩).labels =
      labels.push { entry := some m.snapshot, targeted := true } := by
  unfold MethodDraft.jump
  dsimp only [MethodDraft.append]
  rw [hLabels, getD_push, setIfInBounds_push]
  rfl

theorem bind_last
    {labels : Array LabelState}
    {entry : Snapshot}
    (hLabels : m.labels =
      labels.push { entry := some entry, targeted := true }) :
    m.bind ⟨labels.size⟩ =
      { m.resume entry with
        labels := labels.push
          { offset := some m.offset
            entry := some entry
            targeted := true } } := by
  unfold MethodDraft.bind
  dsimp only [MethodDraft.resume]
  rw [hLabels, getD_push]
  dsimp only
  rw [if_neg (by simp), setIfInBounds_push]
  rfl

/- Going on with nothing on the stack. -/
theorem MethodDraft.Tracks.resume
    {m' : MethodDraft}
    {labels : Array LabelState}
    (hTracks : m.Tracks [])
    (hStack : m.stack = [])
    (hSound : m.Sound)
    (hSound' : ({ m'.resume m.snapshot with
      labels } : MethodDraft).Sound)
    (hTypes : m'.types = m.types) :
    ({ m'.resume m.snapshot with
      labels } : MethodDraft).Tracks [] := by
  refine ⟨?_, ?_, ?_, ?_, ?_, ?_⟩
  · exact congrArg (List.map VType.slots) hStack
  · intro v hv
    change v ∈ m.stack at hv
    rw [hStack] at hv
    cases hv
  · change (MethodDraft.slotsOf m.stack).toNat = 0
    rw [hStack]
    rfl
  · change (MethodDraft.slotsOf m.stack).toNat ≤ _
    rw [hStack]
    exact Nat.zero_le _
  · refine hTracks.held.transport hSound hSound' hTypes ?_
    intro k w hw
    change (m.slots ++ Array.replicate _ VType.top)[k]? =
      some w at hw
    rw [Array.getElem?_append] at hw
    split at hw
    · exact Or.inr hw
    · rw [Array.getElem?_replicate] at hw
      split at hw
      · cases hw
        exact Or.inl rfl
      · cases hw
  · intro t ht
    change t ∈ m'.types at ht
    rw [hTypes] at ht
    exact hTracks.values t ht

/-
  Lines with a jump over a block to what follows it.  The
  label of the jump was made last.
-/
theorem Spelled.skips
    {points before block : List CodePoint}
    (hSpelled : Spelled m points)
    (hGrown : m.pool.Grown m₂.pool)
    (hGrown' :
      (m₂.pop.2.jump .ifnonnull ⟨m.labels.size⟩).pool.Grown m₄.pool)
    (hHeader : m₂.header = m.header)
    (hHeader' : m₄.header =
      (m₂.pop.2.jump .ifnonnull ⟨m.labels.size⟩).header)
    (hLabels : m₂.labels = m.labels.push {})
    (hLabels' : m₄.labels =
      (m₂.pop.2.jump .ifnonnull ⟨m.labels.size⟩).labels)
    (hLoad : Continues m m₂ before)
    (hBlock : Continues
      (m₂.pop.2.jump .ifnonnull ⟨m.labels.size⟩) m₄ block)
    (hNear : m₄.offset ≤ m₂.offset + 32767) :
    Spelled (m₄.bind ⟨m.labels.size⟩)
      (points ++ before ++
        { offset := m₂.offset
          next := m₂.offset + 3
          action := .jump .ifNonNull
          target := some m₄.offset } :: block) := by
  have hSame : m₂.SameCode m₂.pop.2 :=
    (MethodDraft.SameCode.refl m₂).pop
  rw [labels_jump _ (hSame.labels.trans hLabels)] at hLabels'
  rw [bind_last hLabels']
  rw [MethodDraft.pool_jump_pop] at hGrown'
  rw [MethodDraft.header_jump_pop] at hHeader'
  rcases hSpelled with ⟨is, hResolve, hLaid, hEnd, hLinked⟩
  rcases hLoad with ⟨js, hLines₂, hLaid₂, hEnd₂, hLinked₂⟩
  rcases hBlock with ⟨ks, hLines₄, hLaid₄, hEnd₄, hLinked₄⟩
  rw [MethodDraft.offset_jump_pop] at hLaid₄ hEnd₄
  rcases Nat.exists_eq_add_of_le
      (show m₂.offset ≤ m₄.offset by omega) with
    ⟨distance, hDistance⟩
  have hFar : distance ≤ 32767 := by omega
  refine ⟨is ++ js ++ .skipNonNull m₂.offset distance :: ks, ?_, ?_,
    ?_, ?_⟩
  · have hName : m₄.name = m.name := by
      rw [header_name hHeader', header_name hHeader]
    have hAll : m₄.lines.toList = m.lines.toList ++
        js.map Line.instruction ++
          Line.jump m₂.offset .ifnonnull ⟨m.labels.size⟩ ::
            ks.map Line.instruction := by
      rw [hLines₄, MethodDraft.lines_jump_pop, hLines₂]
      simp
    change m₄.lines.toList.mapM (Line.resolve m₄.name
      (m.labels.push _)) = _
    rw [hAll, hName]
    exact resolve_skip js ks hResolve (congrArg some hDistance)
      hFar
  · refine (hLaid.append ?_).append ⟨?_, ⟨nofun, rfl⟩, ?_⟩
    · rw [Nat.zero_add, ← hEnd]
      exact hLaid₂
    · rw [Nat.zero_add, sizes_append, ← hEnd]
      exact hEnd₂
    · exact hLaid₄
  · change m₄.offset = _
    have hSizes : Instruction.sizes
        (.skipNonNull m₂.offset distance :: ks) =
          3 + Instruction.sizes ks := rfl
    rw [hEnd₄, sizes_append, sizes_append, hSizes, ← hEnd]
    omega
  · refine ((hLinked.within (hGrown.trans hGrown').within).append
      (hLinked₂.within hGrown'.within)).append ?_
    unfold Linked at hLinked₄ ⊢
    rw [List.map_cons, List.map_cons, hDistance,
      Instruction.point?_skipNonNull _ _ hFar]
    exact congrArg _ hLinked₄

/-
  A jump over a block that never reaches its end.  Behind the
  block everything is as it was before the jump.
-/
theorem Charted.skips
    {v : VType}
    {as : List Action}
    (hChart : Charted frame s₀ m (some s))
    (hEmpty : s.stack = [])
    (hSound₂ : m₂.Sound)
    (hSound₄ : m₄.Sound)
    (hReference : v.isReference = true)
    (hLoad : Stretch frame
      { m with labels := m.labels.push {} } s m₂
      (some (s.push v)))
    (hBlock : Emits (m₂.pop.2.jump .ifnonnull ⟨m.labels.size⟩) as
      [] m₄)
    (hSome : as ≠ [])
    (hShort : as.length ≤ 1000)
    (hFlow : Stretch frame
      (m₂.pop.2.jump .ifnonnull ⟨m.labels.size⟩) s m₄ none) :
    Charted frame s₀ (m₄.bind ⟨m.labels.size⟩) (some s) := by
  have hSame : m₂.SameCode m₂.pop.2 :=
    (MethodDraft.SameCode.refl m₂).pop
  have hPopped : m₂.pop.2.Tracks [] :=
    hEmpty ▸ (hLoad.tracks _ rfl).pop.1
  have hStack : m₂.pop.2.stack = [] :=
    List.map_eq_nil_iff.mp hPopped.stack
  have hLabels₂ : m₂.pop.2.labels = m.labels.push {} := by
    rw [hSame.labels, hLoad.labels]
  have hLabels₄ : m₄.labels = m.labels.push
      { entry := some m₂.pop.2.snapshot, targeted := true } := by
    rw [hFlow.labels, labels_jump _ hLabels₂]
  have hSoundAll := Emitter.sound_bind hSound₄ ⟨m.labels.size⟩
  have hTypes₄ : m₄.types = m₂.types := by
    rw [hBlock.types, List.append_nil, MethodDraft.types_jump_pop]
  rcases hChart.code with
    ⟨is, points, hResolve, hLaid, hEnd, hLinked, hCode, hWithin⟩
  rcases hLoad.code with ⟨js, points₂, hLines₂, hLaid₂, hEnd₂,
    hLinked₂, hCode₂, hWithin₂⟩
  rcases hFlow.code with ⟨ks, points₄, hLines₄, hLaid₄, hEnd₄,
    hLinked₄, hCode₄, hWithin₄⟩
  have hBounds := hBlock.offset_bounds
  have hOne : 0 < as.length := List.length_pos_iff.mpr hSome
  rw [MethodDraft.offset_jump_pop] at hBounds hCode₄
  have hSpelled : Spelled m points :=
    ⟨is, hResolve, hLaid, hEnd, hLinked⟩
  have hSkips := hSpelled.skips hLoad.grown hFlow.grown
    hLoad.header hFlow.header hLoad.labels hFlow.labels
    ⟨js, hLines₂, hLaid₂, hEnd₂, hLinked₂⟩
    ⟨ks, hLines₄, hLaid₄, hEnd₄, hLinked₄⟩ (by omega)
  rw [bind_last hLabels₄] at hSoundAll hSkips ⊢
  rcases hSkips with ⟨js', hResolve', hLaid', hEnd', hLinked'⟩
  have hHigher₂ : m.maxStack.toNat ≤ m₂.maxStack.toNat :=
    hLoad.higher
  have hHigher₄ : m₂.maxStack.toNat ≤ m₄.maxStack.toNat :=
    Nat.le_trans hSame.higher hFlow.higher
  have hWidths : Ty.widths m.types ≤ Ty.widths m₂.types :=
    hLoad.widths_le
  refine ⟨hSoundAll, ?_, ?_, ?_, js', _, hResolve', hLaid', hEnd',
    hLinked', ?_, ?_⟩
  · intro r hAfter
    cases hAfter
    rw [hEmpty]
    exact hPopped.resume hStack (Emitter.sound_pop hSound₂)
      hSoundAll (hTypes₄.trans hSame.types.symm)
  · have hFew := hChart.fewLabels
    have hMoves : m.offset ≤ m₂.offset := by
      have hStart : ({ m with labels := m.labels.push {} } :
        MethodDraft).offset = m.offset := rfl
      omega
    simp only [Array.size_push]
    change _ ≤ m₄.offset
    omega
  · intro state hIn entry hEntry
    simp only [Array.toList_push, List.mem_append,
      List.mem_singleton] at hIn
    rcases hIn with hOld | rfl
    · exact hChart.entries state hOld entry hEntry
    · cases hEntry
      exact hStack
  · have hCheck : (Action.jump .ifNonNull).check frame
        (s.push v) = some s := by
      simp [Action.check, hReference]
    have hLow : s.height ≤ m₄.maxStack.toNat := by
      unfold TypeState.height
      rw [hEmpty]
      exact Nat.zero_le _
    have hJump := Flow.skip
      (q := { offset := m₂.offset
              next := m₂.offset + 3
              action := .jump .ifNonNull
              target := some m₄.offset })
      (Nat.lt_add_of_pos_right (by omega)) hCheck hLow rfl rfl
      rfl hCode₄
    exact ((hCode.mono (Nat.le_trans hHigher₂ hHigher₄)).append
      (hCode₂.mono hHigher₄)).append hJump
  · change LocalsWithin (Ty.widths m₄.types) _
    rw [hTypes₄] at hWithin₄ ⊢
    exact ((hWithin.mono hWidths).append hWithin₂).append
      (hWithin₄.cons rfl)

end Skips

end Stratagem

import Stratagem.Proofs.Assembly.Balance

/-
  Which locals are parameters.

  Whatever steps are taken, the locals of a method lie one
  behind another and fill its slots, and those of its
  parameters are where they were.  A parameter is told from
  other locals only by holding a value; so a local that was
  stored to passes for one more parameter.

  Key definitions include:
    * `MethodDraft.Laid`
    * `MethodDraft.Started`
    * `Step.StoresTo`

  Main declarations:
    * `Step.laid_runAll`
    * `Step.started_runAll`
    * `ClassDraft.locals_tile`
-/

namespace Stratagem

open Jvm Emitter

------------------------------------------------------------
-- Locals in a Row
------------------------------------------------------------

namespace MethodDraft

/- A draft whose locals lie in a row, whatever its pool is. -/
def Laid
    (m : MethodDraft) : Prop :=
  Sound { m with pool := {} }

namespace Laid

variable {m m' : MethodDraft}

theorem of_same
    (hLaid : m.Laid)
    (hLocals : m'.locals = m.locals)
    (hSize : m'.slots.size = m.slots.size)
    (hLabels : m'.labels = m.labels) :
    m'.Laid :=
  Sound.of_same hLaid (.refl _) hLocals hSize hLabels

theorem of_since
    {change : VType → VType}
    {k : Nat}
    (hLaid : m.Laid)
    (hSince : m.Since change k m') :
    m'.Laid := by
  refine hLaid.of_same hSince.locals ?_ hSince.labels
  rw [hSince.slots, Array.size_map]

/- No local reaches behind the slots of the draft. -/
theorem add_width_le
    {i : Nat}
    {v : LocalVar}
    (hLaid : m.Laid)
    (hLocal : m.locals[i]? = some v) :
    v.slot + v.ty.width ≤ m.slots.size := by
  have hType : m.types[i]? = some v.ty := by
    rw [Sound.types_getElem?, hLocal]
    rfl
  have hWithin := Ty.slotOf_add_width_le_widths hType
  have hPlace : v.slot = Ty.slotOf m.types i :=
    hLaid.placed i v hLocal
  have hSize : m.slots.size = Ty.widths m.types := hLaid.size
  omega

/- A local ends before every later one. -/
theorem add_width_le_slot
    {i j : Nat}
    {v w : LocalVar}
    (hLaid : m.Laid)
    (hFirst : m.locals[i]? = some v)
    (hLater : m.locals[j]? = some w)
    (hLess : i < j) :
    v.slot + v.ty.width ≤ w.slot := by
  have hType : m.types[i]? = some v.ty := by
    rw [Sound.types_getElem?, hFirst]
    rfl
  have hOrder := Ty.slotOf_add_width_le hType hLess
  have hPlace : v.slot = Ty.slotOf m.types i :=
    hLaid.placed i v hFirst
  have hPlace' : w.slot = Ty.slotOf m.types j :=
    hLaid.placed j w hLater
  omega

end Laid

/- A jump keeps a row, and so does what ends there. -/
theorem Laid.jump
    {m : MethodDraft}
    (hLaid : m.Laid)
    (opcode : Opcode)
    (l : Label) :
    (m.jump opcode l).Laid :=
  sound_jump hLaid opcode l

theorem Laid.bind
    {m : MethodDraft}
    (hLaid : m.Laid)
    (l : Label) :
    (m.bind l).Laid := by
  have hBound : (MethodDraft.bind { m with pool := {} } l).Sound :=
    sound_bind hLaid l
  refine Sound.of_same hBound ?_ ?_ ?_ ?_
  all_goals
    unfold MethodDraft.bind
    dsimp only
    split
  all_goals exact .refl _

end MethodDraft

------------------------------------------------------------
-- Steps on Locals
------------------------------------------------------------

/- A local as it is later: it may hold a value by then. -/
structure LocalVar.Grows
    (v w : LocalVar) : Prop where
  ty : w.ty = v.ty
  slot : w.slot = v.slot
  start : ∀ x ∈ v.start, x ∈ w.start

theorem LocalVar.Grows.refl
    (v : LocalVar) :
    LocalVar.Grows v v :=
  ⟨rfl, rfl, fun _ hStart => hStart⟩

theorem LocalVar.Grows.trans
    {u v w : LocalVar}
    (hFirst : LocalVar.Grows u v)
    (hNext : LocalVar.Grows v w) :
    LocalVar.Grows u w :=
  ⟨hNext.ty.trans hFirst.ty, hNext.slot.trans hFirst.slot,
    fun x hStart => hNext.start x (hFirst.start x hStart)⟩

namespace MethodDraft

/- A local of a draft holds a value. -/
def Started
    (m : MethodDraft)
    (i : Nat) : Prop :=
  ∃ v, m.locals[i]? = some v ∧ v.start.isSome

/- A later draft of a method has the locals of an earlier one. -/
structure Inherits
    (m m' : MethodDraft) : Prop where
  header : m'.header = m.header
  locals : ∀ (i : Nat) (v : LocalVar), m.locals[i]? = some v →
    ∃ w, m'.locals[i]? = some w ∧ LocalVar.Grows v w

namespace Inherits

variable {m m₁ m' : MethodDraft}

theorem trans
    (hFirst : m.Inherits m₁)
    (hNext : m₁.Inherits m') :
    m.Inherits m' := by
  refine ⟨hNext.header.trans hFirst.header, fun i u hLocal => ?_⟩
  rcases hFirst.locals i u hLocal with ⟨v, hOne, hGrows⟩
  rcases hNext.locals i v hOne with ⟨w, hTwo, hMore⟩
  exact ⟨w, hTwo, hGrows.trans hMore⟩

theorem of_same
    (hHeader : m'.header = m.header)
    (hLocals : m'.locals = m.locals) :
    m.Inherits m' := by
  refine ⟨hHeader, fun i v hLocal => ⟨v, ?_, .refl v⟩⟩
  rw [hLocals]
  exact hLocal

theorem refl
    (m : MethodDraft) :
    m.Inherits m :=
  of_same rfl rfl

theorem of_since
    {change : VType → VType}
    {k : Nat}
    (hSince : m.Since change k m') :
    m.Inherits m' :=
  of_same hSince.header hSince.locals

/- A new local is behind all others. -/
theorem alloc
    (m : MethodDraft)
    (name : String)
    (ty : Ty)
    (start : Option Nat)
    (holds : VType) :
    m.Inherits (m.alloc name ty start holds).2 := by
  refine ⟨rfl, fun i v hLocal => ⟨v, ?_, .refl v⟩⟩
  rcases Array.getElem?_eq_some_iff.mp hLocal with ⟨hIn, -⟩
  simp only [MethodDraft.alloc, Array.getElem?_push,
    if_neg (Nat.ne_of_lt hIn)]
  exact hLocal

end Inherits

/- A local that is stored to holds a value. -/
theorem getElem?_stored
    {m : MethodDraft}
    {l : Local}
    {v : LocalVar}
    (hLocal : m.locals[l.index]? = some v)
    (i : Nat) :
    (m.stored l v).locals[i]? =
      if i = l.index then
        some { v with start := v.start <|> some m.offset }
      else m.locals[i]? := by
  rcases Array.getElem?_eq_some_iff.mp hLocal with ⟨hIn, -⟩
  unfold MethodDraft.stored
  rw [Array.getElem?_setIfInBounds]
  by_cases hSame : l.index = i
  · rw [if_pos hSame, if_pos (hSame ▸ hIn), if_pos hSame.symm]
  · rw [if_neg hSame, if_neg (Ne.symm hSame)]

theorem started_congr
    {m m' : MethodDraft}
    (hLocals : m'.locals = m.locals)
    (i : Nat) :
    m'.Started i ↔ m.Started i := by
  rw [Started, Started, hLocals]

/- A new local holds no value. -/
theorem started_alloc
    (m : MethodDraft)
    (name : String)
    (ty : Ty)
    (holds : VType)
    (i : Nat) :
    (m.alloc name ty none holds).2.Started i ↔ m.Started i := by
  unfold Started
  simp only [MethodDraft.alloc, Array.getElem?_push]
  by_cases hLast : i = m.locals.size
  · rw [if_pos hLast]
    refine iff_of_false ?_ ?_
    · rintro ⟨v, hLocal, hHeld⟩
      cases hLocal
      cases hHeld
    · rintro ⟨v, hLocal, -⟩
      rw [Array.getElem?_eq_none (Nat.le_of_eq hLast.symm)] at hLocal
      cases hLocal
  · rw [if_neg hLast]

theorem Inherits.stored
    {m : MethodDraft}
    {l : Local}
    {v : LocalVar}
    (hLocal : m.locals[l.index]? = some v) :
    m.Inherits (m.stored l v) := by
  refine ⟨rfl, fun i w hOld => ?_⟩
  rw [getElem?_stored hLocal]
  split
  case isTrue hSame =>
      rw [hSame, hLocal] at hOld
      cases hOld
      refine ⟨_, rfl, rfl, rfl, fun x hStart => ?_⟩
      rw [Option.mem_def] at hStart ⊢
      dsimp only
      rw [hStart]
      rfl
  case isFalse => exact ⟨w, hOld, .refl w⟩

theorem started_stored
    {m : MethodDraft}
    {l : Local}
    {v : LocalVar}
    (hLocal : m.locals[l.index]? = some v)
    (i : Nat) :
    (m.stored l v).Started i ↔ m.Started i ∨ i = l.index := by
  rw [Started, getElem?_stored hLocal]
  by_cases hSame : i = l.index
  · rw [if_pos hSame]
    have hHeld : (v.start <|> some m.offset).isSome = true := by
      cases v.start <;> rfl
    exact iff_of_true ⟨_, rfl, hHeld⟩ (Or.inr hSame)
  · rw [if_neg hSame, or_iff_left hSame]
    rfl

end MethodDraft

namespace Step

open MethodDraft

variable {m m' : MethodDraft} {s : Step}

/- No step takes a local from a row. -/
theorem Turns.laid
    (hTurns : s.Turns m m')
    (hLaid : m.Laid) :
    m'.Laid := by
  cases hTurns with
  | passive _ hChanges => exact hLaid.of_since hChanges.since
  | stored hLocal hSince =>
      rw [← hSince.locals] at hLocal
      exact sound_stored (hLaid.of_since hSince) hLocal
  | missing => exact hLaid
  | added hRoom => exact Sound.alloc hLaid hRoom
  | full => exact hLaid
  | labelled =>
      exact (safe_newLabel.discard { m with pool := {} }).sound hLaid
  | bound => exact hLaid.bind _
  | jumped _ hSince => exact (hLaid.of_since hSince).jump _ _
  | left _ hSince =>
      exact ((hLaid.of_since hSince).jump _ _).of_same rfl rfl rfl

theorem laid_runAll
    (steps : List Step)
    (hLaid : m.Laid) :
    (runAll steps m).Laid := by
  induction steps generalizing m with
  | nil => exact hLaid
  | cons s steps ih => exact ih ((turns_apply s m).laid hLaid)

/- No step takes a local away. -/
theorem Turns.inherits
    (hTurns : s.Turns m m') :
    m.Inherits m' := by
  cases hTurns with
  | passive _ hChanges => exact .of_since hChanges.since
  | stored hLocal hSince =>
      rw [← hSince.locals] at hLocal
      exact (Inherits.of_since hSince).trans (.stored hLocal)
  | missing => exact .refl m
  | added => exact .alloc m _ _ _ _
  | full => exact .refl m
  | labelled => exact .of_same rfl rfl
  | bound =>
      refine .of_same ?_ ?_ <;>
        · unfold MethodDraft.bind
          dsimp only
          split <;> rfl
  | jumped _ hSince =>
      exact (Inherits.of_since hSince).trans (.of_same rfl rfl)
  | left _ hSince =>
      exact (Inherits.of_since hSince).trans (.of_same rfl rfl)

theorem inherits_runAll
    (steps : List Step)
    (m : MethodDraft) :
    m.Inherits (runAll steps m) := by
  induction steps generalizing m with
  | nil => exact .refl m
  | cons s steps ih =>
      exact (turns_apply s m).inherits.trans (ih (s.apply m))

/- A local gets a value by a store to it alone. -/
theorem Turns.started_iff
    (hTurns : s.Turns m m')
    (i : Nat) :
    m'.Started i ↔
      m.Started i ∨ (s = .store ⟨i⟩ ∧ i < m.locals.size) := by
  have hSame : ∀ {n : MethodDraft}, n.locals = m.locals →
      s ≠ .store ⟨i⟩ → (n.Started i ↔
        m.Started i ∨ (s = .store ⟨i⟩ ∧ i < m.locals.size)) := by
    intro n hLocals hOther
    rw [started_congr hLocals, or_iff_left fun h => hOther h.1]
  cases hTurns with
  | passive hPassive hChanges =>
      refine hSame hChanges.since.locals ?_
      rintro rfl
      cases hPassive
  | @stored l v n hLocal hSince =>
      have hIn := (Array.getElem?_eq_some_iff.mp hLocal).1
      rw [← hSince.locals] at hLocal
      rw [started_stored hLocal, started_congr hSince.locals]
      refine or_congr_right ⟨?_, ?_⟩
      · rintro rfl
        exact ⟨rfl, hIn⟩
      · rintro ⟨hStore, -⟩
        cases hStore
        rfl
  | @missing l hLocal =>
      have hOut := Array.getElem?_eq_none_iff.mp hLocal
      rw [or_iff_left]
      rintro ⟨hStore, hIn⟩
      cases hStore
      exact absurd hIn (Nat.not_lt.mpr hOut)
  | added => exact (started_alloc m _ _ _ i).trans (by simp)
  | full => exact hSame rfl nofun
  | labelled => exact hSame rfl nofun
  | bound =>
      refine hSame ?_ nofun
      unfold MethodDraft.bind
      dsimp only
      split <;> rfl
  | jumped hJump hSince =>
      refine hSame hSince.locals ?_
      rintro rfl
      cases hJump
  | left hJump hSince =>
      refine hSame hSince.locals ?_
      rintro rfl
      cases hJump

/- A local that there is by then is stored to. -/
def StoresTo
    (steps : List Step)
    (m : MethodDraft)
    (l : Local) : Prop :=
  Sometime
    (fun m s => s = .store l ∧ l.index < m.locals.size) steps m

/- The locals with values are those that were stored to. -/
theorem started_runAll
    (steps : List Step)
    (m : MethodDraft)
    (i : Nat) :
    (runAll steps m).Started i ↔
      m.Started i ∨ StoresTo steps m ⟨i⟩ := by
  induction steps generalizing m with
  | nil => exact ⟨Or.inl, fun h => h.resolve_right id⟩
  | cons s steps ih =>
      have hRest := ih (s.apply m)
      rw [(turns_apply s m).started_iff, or_assoc] at hRest
      exact hRest

end Step

------------------------------------------------------------
-- Tiles
------------------------------------------------------------

/- Locals one behind another fill their slots in order. -/
theorem flatMap_slots
    {vs : List LocalVar}
    {k : Nat}
    (hPlaced : ∀ (i : Nat) (v : LocalVar), vs[i]? = some v →
      v.slot = k + Ty.slotOf (vs.map LocalVar.ty) i) :
    (vs.flatMap fun v => List.range' v.slot v.ty.width) =
      List.range' k (Ty.widths (vs.map LocalVar.ty)) := by
  induction vs generalizing k with
  | nil => rfl
  | cons v vs ih =>
      have hFirst : v.slot = k := hPlaced 0 v rfl
      have hRest := ih (k := k + v.ty.width) (by
        intro i w hw
        have hSlot := hPlaced (i + 1) w hw
        have hNext : Ty.slotOf ((v :: vs).map LocalVar.ty) (i + 1) =
            v.ty.width + Ty.slotOf (vs.map LocalVar.ty) i := rfl
        omega)
      rw [List.flatMap_cons, hRest, hFirst, List.map_cons,
        Ty.widths_cons, ← List.range'_append_1]

namespace MethodDraft

variable {m : MethodDraft}

theorem Laid.tile
    (hLaid : m.Laid) :
    (m.locals.toList.flatMap fun v =>
      List.range' v.slot v.ty.width) =
        List.range m.maxLocals.toNat := by
  have hSize : m.slots.size = Ty.widths m.types := hLaid.size
  have hSmall : m.slots.size ≤ 65535 := hLaid.small
  have hSlots := flatMap_slots (k := 0) (by
    intro i v hv
    rw [Array.getElem?_toList] at hv
    rw [Nat.zero_add]
    exact hLaid.placed i v hv)
  rw [hSlots, List.range_eq_range', maxLocals, UInt16.toNat_ofNat',
    Nat.mod_eq_of_lt (Nat.lt_succ_of_le hSmall), hSize]
  rfl

theorem Laid.pairwise
    (hLaid : m.Laid) :
    m.locals.toList.Pairwise
      fun v w => v.slot + v.ty.width ≤ w.slot := by
  rw [List.pairwise_iff_getElem]
  intro i j hi hj hLess
  refine hLaid.add_width_le_slot (i := i) (j := j) ?_ ?_ hLess
  · rw [← Array.getElem?_toList]
    exact List.getElem?_eq_getElem hi
  · rw [← Array.getElem?_toList]
    exact List.getElem?_eq_getElem hj

end MethodDraft

------------------------------------------------------------
-- Parameters
------------------------------------------------------------

/- Which local is that of the first parameter. -/
def firstParameter
    (access : UInt16) : Nat :=
  if access &&& staticFlag != 0 then 0 else 1

namespace MethodDraft

/- The local of a parameter is the one that should be it. -/
theorem parameter?_iff
    {m : MethodDraft}
    {i : Nat}
    {l : Local} :
    m.parameter? i = some l ↔
      l = ⟨firstParameter m.access + i⟩ ∧ m.Started l.index := by
  unfold parameter? firstParameter isStatic Started
  dsimp only
  generalize (if m.access &&& staticFlag != 0 then 0 else 1) + i = k
  split
  case h_1 v hLocal =>
      split
      case isTrue hHeld =>
          constructor
          · rintro ⟨⟩
            exact ⟨rfl, v, hLocal, hHeld⟩
          · rintro ⟨rfl, -⟩
            rfl
      case isFalse hNot =>
          refine ⟨nofun, ?_⟩
          rintro ⟨rfl, w, hThere, hHeld⟩
          rw [hLocal] at hThere
          cases hThere
          exact absurd hHeld hNot
  case h_2 hLocal =>
      refine ⟨nofun, ?_⟩
      rintro ⟨rfl, w, hThere, -⟩
      rw [hLocal] at hThere
      cases hThere

end MethodDraft

namespace ClassDraft

variable {flags : UInt16} {name : String} {signature : MethodSig}
variable {paramNames : List String} {c : ClassDraft}
variable {m : MethodDraft}

theorem length_receiver
    (c : ClassDraft)
    (flags : UInt16) :
    (c.receiver flags).length = firstParameter flags := by
  unfold receiver firstParameter
  split <;> rfl

/- The receiver takes one slot, if there is one. -/
theorem slotOf_receiver
    (c : ClassDraft)
    (flags : UInt16)
    (ts : List Ty)
    (i : Nat) :
    Ty.slotOf (c.receiver flags ++ ts) (firstParameter flags + i) =
      firstParameter flags + Ty.widths (ts.take i) := by
  rw [← length_receiver c, Ty.slotOf,
    List.take_length_add_append, Ty.widths_append]
  unfold receiver
  split <;> rfl

/- A new method has the locals of its receiver and parameters. -/
theorem laid_method
    (hMethod : c.method flags name signature paramNames = .ok m) :
    m.Laid ∧ m.types = c.receiver flags ++ signature.params ∧
      ∀ i, m.Started i ↔ i < m.locals.size := by
  have hAlloc : ∀ {ts : List Ty} {m : MethodDraft} (name : String)
      (t : Ty) (holds : VType), m.hasRoom t = true →
      (m.Laid ∧ m.types = ts ∧
        ∀ i, m.Started i ↔ i < m.locals.size) →
      (m.alloc name t (some 0) holds).2.Laid ∧
        (m.alloc name t (some 0) holds).2.types = ts ++ [t] ∧
        ∀ i, (m.alloc name t (some 0) holds).2.Started i ↔
          i < (m.alloc name t (some 0) holds).2.locals.size := by
    rintro ts m name t holds hRoom ⟨hLaid, hTypes, hStarted⟩
    refine ⟨MethodDraft.Sound.alloc hLaid hRoom, ?_, fun i => ?_⟩
    · rw [m.types_alloc, hTypes]
    · unfold MethodDraft.Started at hStarted ⊢
      simp only [MethodDraft.alloc, Array.getElem?_push,
        Array.size_push]
      by_cases hLast : i = m.locals.size
      · rw [if_pos hLast]
        exact iff_of_true ⟨_, rfl, rfl⟩ (by omega)
      · rw [if_neg hLast, hStarted]
        omega
  refine method_induct (P := fun ts m => m.Laid ∧ m.types = ts ∧
    ∀ i, m.Started i ↔ i < m.locals.size) hMethod ?_ ?_ ?_
  · intro descriptor generic _
    refine ⟨⟨ConstantPool.sound_empty, ?_, rfl, Nat.zero_le _, ?_⟩,
      rfl, fun i => ?_⟩
    · intro i v hv
      simp at hv
    · intro l hl
      simp at hl
    · simp [MethodDraft.Started]
  · intro m holds hRoom _ hBefore
    exact hAlloc "this" _ holds hRoom hBefore
  · intro done m name t _ hRoom hBefore
    exact hAlloc name t _ hRoom hBefore

/-
  A method of a class is made by steps.  Its locals then lie one
  behind another and fill its slots.  Each parameter is found,
  with its type, behind those before it.  Any other position is
  said to be that of a parameter exactly if the local there was
  stored to.
-/
theorem locals_tile
    (hMethod : c.method flags name signature paramNames = .ok m)
    (steps : List Step) :
    let m' := Step.runAll steps m
    let first := firstParameter flags
    (m'.locals.toList.flatMap fun v =>
        List.range' v.slot v.ty.width) =
      List.range m'.maxLocals.toNat ∧
    (m'.locals.toList.Pairwise fun v w =>
      v.slot + v.ty.width ≤ w.slot) ∧
    (∀ (i : Nat) (t : Ty), signature.params[i]? = some t →
      ∃ v, m'.parameter? i = some ⟨first + i⟩ ∧
        m'.locals[first + i]? = some v ∧ v.ty = t ∧
        v.slot = first + Ty.widths (signature.params.take i)) ∧
    ∀ (i : Nat) (l : Local), m'.parameter? i = some l ↔
      l = ⟨first + i⟩ ∧ (i < signature.params.length ∨
        Step.StoresTo steps m ⟨first + i⟩) := by
  dsimp only
  rcases laid_method hMethod with ⟨hLaid, hTypes, hStarted⟩
  have hInherits := Step.inherits_runAll steps m
  have hEnd := Step.laid_runAll steps hLaid
  have hFlags : (Step.runAll steps m).access = flags := by
    have hSame := congrArg (fun h => h.2.2.1) hInherits.header
    exact hSame.trans (header_method hMethod).2.2.1
  have hCount : m.locals.size =
      firstParameter flags + signature.params.length := by
    have hLength := congrArg List.length hTypes
    rw [List.length_append, length_receiver] at hLength
    rw [← hLength, MethodDraft.types, List.length_map,
      Array.length_toList]
  have hAnswer : ∀ (i : Nat) (l : Local),
      (Step.runAll steps m).parameter? i = some l ↔
        l = ⟨firstParameter flags + i⟩ ∧
          (i < signature.params.length ∨
            Step.StoresTo steps m ⟨firstParameter flags + i⟩) := by
    intro i l
    rw [MethodDraft.parameter?_iff, hFlags]
    refine and_congr_right ?_
    rintro rfl
    rw [Step.started_runAll, hStarted, hCount, Nat.add_lt_add_iff_left]
  refine ⟨hEnd.tile, hEnd.pairwise, ?_, hAnswer⟩
  intro i t hParam
  have hIn := (List.getElem?_eq_some_iff.mp hParam).1
  have hType : m.types[firstParameter flags + i]? = some t := by
    rw [hTypes, ← length_receiver c, List.getElem?_append_right
      (Nat.le_add_right _ _), Nat.add_sub_cancel_left]
    exact hParam
  rw [MethodDraft.Sound.types_getElem?] at hType
  rcases Option.map_eq_some_iff.mp hType with ⟨v, hLocal, rfl⟩
  rcases hInherits.locals _ v hLocal with ⟨w, hLater, hGrows⟩
  have hPlace : v.slot = Ty.slotOf m.types (firstParameter flags + i) :=
    hLaid.placed _ v hLocal
  refine ⟨w, (hAnswer i _).mpr ⟨rfl, Or.inl hIn⟩, hLater, hGrows.ty,
    ?_⟩
  rw [hGrows.slot, hPlace, hTypes, slotOf_receiver]

end ClassDraft

------------------------------------------------------------
-- Samples
------------------------------------------------------------

/- A local that is made, and then stored to. -/
def storedLocal : List Step :=
  [.newLocal "x" (.primitive .int), .iconst 5, .store ⟨0⟩]

/- It is where a parameter would be, and taken for it. -/
theorem storedLocal_mistaken :
    ∃ (c : ClassDraft) (m : MethodDraft),
      ClassDraft.start 52 1 "A" "java/lang/Object" = .ok c ∧
      c.method 8 "m" plainMethod [] = .ok m ∧
      plainMethod.params = [] ∧
      (Step.runAll (storedLocal.take 1) m).parameter? 0 = none ∧
      (Step.runAll storedLocal m).parameter? 0 = some ⟨0⟩ :=
  ⟨_, _, rfl, rfl, by decide +kernel⟩

/- A method with a parameter of two slots and one of one. -/
def wideMethod : MethodSig :=
  { result := .primitive .void
    params := [.primitive .long, .primitive .int] }

/- Its parameters are behind the receiver, whatever is stored. -/
theorem wideMethod_tiled :
    ∃ (c : ClassDraft) (m : MethodDraft) (v : LocalVar),
      ClassDraft.start 52 1 "A" "java/lang/Object" = .ok c ∧
      c.method 1 "m" wideMethod [] = .ok m ∧
      ((Step.runAll storedLocal m).locals.toList.flatMap fun v =>
          List.range' v.slot v.ty.width) =
        List.range (Step.runAll storedLocal m).maxLocals.toNat ∧
      (Step.runAll storedLocal m).parameter? 1 = some ⟨2⟩ ∧
      (Step.runAll storedLocal m).locals[2]? = some v ∧
      v.slot = 3 := by
  have hDraft : ∃ c m,
      ClassDraft.start 52 1 "A" "java/lang/Object" = .ok c ∧
      c.method 1 "m" wideMethod [] = .ok m :=
    ⟨_, _, rfl, rfl⟩
  rcases hDraft with ⟨c, m, hStart, hMethod⟩
  rcases ClassDraft.locals_tile hMethod storedLocal with
    ⟨hTile, -, hParameters, -⟩
  rcases hParameters 1 _ rfl with ⟨v, hFound, hLocal, -, hSlot⟩
  exact ⟨c, m, v, hStart, hMethod, hTile, hFound, hLocal, hSlot⟩

end Stratagem

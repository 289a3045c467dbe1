import Stratagem.Assembly.ClassDraft
import Stratagem.Proofs.Code.Typing

/-
  Where the locals of a draft are.

  The locals of a draft lie one behind another, each in as
  many slots as its values take.

  Key definitions include:
    * `Jvm.Ty.width`
    * `Jvm.Ty.slotOf`
    * `MethodDraft.EachEntry`
    * `MethodDraft.Sound`
    * `MethodDraft.Held`
    * `MethodDraft.Numbered`
    * `MethodDraft.Bare`
    * `MethodDraft.Blank`

  Main declarations:
    * `Jvm.Ty.slotOf_add_width_le`
    * `MethodDraft.Sound.alloc`
    * `ClassDraft.sound_method`
    * `ClassDraft.bare_method`
    * `ClassDraft.blank_method`
-/

namespace Stratagem

open Jvm

------------------------------------------------------------
-- Slots of Locals
------------------------------------------------------------

namespace Jvm

namespace Ty

/- Slots that a local of a type takes. -/
def width
    (t : Ty) : Nat :=
  (Family.ofTy t).slots

/- Slots that locals of several types take. -/
def widths
    (ts : List Ty) : Nat :=
  ts.foldr (fun t n => t.width + n) 0

/- The first slot of a local, given the types of all. -/
def slotOf
    (ts : List Ty)
    (i : Nat) : Nat :=
  widths (ts.take i)

theorem width_eq
    (t : Ty) :
    t.width = max t.slots 1 := by
  cases t with
  | primitive p => cases p <;> rfl
  | _ => rfl

theorem width_pos
    (t : Ty) :
    0 < t.width := by
  rw [width_eq]
  omega

theorem width_le
    (t : Ty) :
    t.width ≤ 2 := by
  unfold width
  cases Family.ofTy t <;> decide

@[simp] theorem widths_nil :
    widths [] = 0 :=
  rfl

@[simp] theorem widths_cons
    (t : Ty)
    (ts : List Ty) :
    widths (t :: ts) = t.width + widths ts :=
  rfl

@[simp] theorem widths_append
    (ts us : List Ty) :
    widths (ts ++ us) = widths ts + widths us := by
  induction ts with
  | nil => simp
  | cons t ts ih => simp [ih, Nat.add_assoc]

theorem length_le_widths
    (ts : List Ty) :
    ts.length ≤ widths ts := by
  induction ts with
  | nil => simp
  | cons t ts ih =>
      have hPos := t.width_pos
      simp only [List.length_cons, widths_cons]
      omega

/- More locals leave the earlier ones where they are. -/
theorem slotOf_append
    {ts : List Ty}
    {i : Nat}
    (us : List Ty)
    (hIn : i ≤ ts.length) :
    slotOf (ts ++ us) i = slotOf ts i := by
  unfold slotOf
  rw [List.take_append_of_le_length hIn]

theorem slotOf_length
    (ts : List Ty) :
    slotOf ts ts.length = widths ts := by
  unfold slotOf
  rw [List.take_length]

theorem slotOf_succ
    {ts : List Ty}
    {i : Nat}
    {t : Ty}
    (hAt : ts[i]? = some t) :
    slotOf ts (i + 1) = slotOf ts i + t.width := by
  unfold slotOf
  rw [List.take_add_one, hAt]
  simp

/- Locals of one slot each are found by counting. -/
theorem slotOf_narrow
    {ts : List Ty}
    {i : Nat}
    (hNarrow : ∀ t ∈ ts, t.width = 1)
    (hIn : i ≤ ts.length) :
    slotOf ts i = i := by
  induction i with
  | zero => rfl
  | succ i ih =>
      have hAt := List.getElem?_eq_getElem hIn
      rw [slotOf_succ hAt, ih (Nat.le_of_succ_le hIn),
        hNarrow _ (List.getElem_mem hIn)]

theorem slotOf_mono
    (ts : List Ty)
    {i j : Nat}
    (hLe : i ≤ j) :
    slotOf ts i ≤ slotOf ts j := by
  induction j with
  | zero =>
      cases Nat.le_zero.mp hLe
      exact Nat.le_refl _
  | succ j ih =>
      rcases Nat.eq_or_lt_of_le hLe with rfl | hLt
      · exact Nat.le_refl _
      · refine Nat.le_trans (ih (Nat.le_of_lt_succ hLt)) ?_
        unfold slotOf
        rw [List.take_add_one, widths_append]
        exact Nat.le_add_right _ _

/- A local ends before every later one starts. -/
theorem slotOf_add_width_le
    {ts : List Ty}
    {i j : Nat}
    {t : Ty}
    (hAt : ts[i]? = some t)
    (hLt : i < j) :
    slotOf ts i + t.width ≤ slotOf ts j := by
  rw [← slotOf_succ hAt]
  exact slotOf_mono ts hLt

/- And within the slots of all. -/
theorem slotOf_add_width_le_widths
    {ts : List Ty}
    {i : Nat}
    {t : Ty}
    (hAt : ts[i]? = some t) :
    slotOf ts i + t.width ≤ widths ts := by
  rcases List.getElem?_eq_some_iff.mp hAt with ⟨hLt, _⟩
  rw [← slotOf_length ts]
  exact slotOf_add_width_le hAt hLt

end Ty

end Jvm

------------------------------------------------------------
-- Sound Drafts
------------------------------------------------------------

namespace MethodDraft

/- The types of the locals in order. -/
def types
    (m : MethodDraft) : List Ty :=
  m.locals.toList.map LocalVar.ty

/- A property of all that is known at labels. -/
def EachEntry
    (labels : Array LabelState)
    (P : Snapshot → Prop) : Prop :=
  ∀ l ∈ labels, ∀ e, l.entry = some e → P e

namespace EachEntry

variable {labels : Array LabelState} {P : Snapshot → Prop}

theorem get
    (hEach : EachEntry labels P)
    (i : Nat)
    {e : Snapshot}
    (hEntry : (labels.getD i {}).entry = some e) :
    P e := by
  rw [Array.getD_eq_getD_getElem?] at hEntry
  cases hLabel : labels[i]? with
  | none =>
      rw [hLabel] at hEntry
      cases hEntry
  | some l =>
      rw [hLabel] at hEntry
      exact hEach l (Array.mem_of_getElem? hLabel) e hEntry

theorem set
    (hEach : EachEntry labels P)
    {l : LabelState}
    (hNew : ∀ e, l.entry = some e → P e)
    (i : Nat) :
    EachEntry (labels.setIfInBounds i l) P := by
  intro k hk e he
  rcases Array.mem_or_eq_of_mem_setIfInBounds hk with hOld | rfl
  · exact hEach k hOld e he
  · exact hNew e he

/- Nothing is known at a new label. -/
theorem push
    (hEach : EachEntry labels P) :
    EachEntry (labels.push {}) P := by
  intro k hk e he
  rcases Array.mem_push.mp hk with hOld | rfl
  · exact hEach k hOld e he
  · cases he

/- What is known at a label, or else this. -/
theorem known
    (hEach : EachEntry labels P)
    {s : Snapshot}
    (hHere : P s)
    (i : Nat) :
    P ((labels.getD i {}).entry.getD s) := by
  cases hKnown : (labels.getD i {}).entry with
  | none => exact hHere
  | some e => exact hEach.get i hKnown

/- The first jump to a label is what makes it known. -/
theorem first
    (hEach : EachEntry labels P)
    {s : Snapshot}
    (hHere : P s)
    (i : Nat)
    {e : Snapshot}
    (hEntry : ((labels.getD i {}).entry <|> some s) = some e) :
    P e := by
  cases hKnown : (labels.getD i {}).entry with
  | none =>
      rw [hKnown] at hEntry
      cases hEntry
      exact hHere
  | some known =>
      rw [hKnown] at hEntry
      cases hEntry
      exact hEach.get i hKnown

end EachEntry

/- A draft whose pool is sound and whose locals lie in a row. -/
structure Sound
    (m : MethodDraft) : Prop where
  pool : m.pool.Sound
  placed : ∀ (i : Nat) (v : LocalVar), m.locals[i]? = some v →
    v.slot = Ty.slotOf m.types i
  size : m.slots.size = Ty.widths m.types
  small : m.slots.size ≤ 65535
  entries : EachEntry m.labels fun e => e.slots.size ≤ m.slots.size

namespace Sound

variable {m m' : MethodDraft}

/- Other parts of a draft do not matter. -/
theorem of_same
    (hSound : m.Sound)
    (hPool : m.pool.Grown m'.pool)
    (hLocals : m'.locals = m.locals)
    (hSize : m'.slots.size = m.slots.size)
    (hLabels : m'.labels = m.labels) :
    m'.Sound := by
  have hTypes : m'.types = m.types := by
    rw [types, types, hLocals]
  refine ⟨hPool.sound hSound.pool, ?_, ?_, ?_, ?_⟩
  · intro i v hv
    rw [hLocals] at hv
    rw [hTypes]
    exact hSound.placed i v hv
  · rw [hSize, hTypes]
    exact hSound.size
  · rw [hSize]
    exact hSound.small
  · rw [hSize, hLabels]
    exact hSound.entries

/- The type of a local, by its position. -/
theorem types_getElem?
    (m : MethodDraft)
    (i : Nat) :
    m.types[i]? = m.locals[i]?.map LocalVar.ty := by
  rw [types, List.getElem?_map, Array.getElem?_toList]

end Sound

theorem types_alloc
    (m : MethodDraft)
    (name : String)
    (ty : Ty)
    (start : Option Nat)
    (holds : VType) :
    (m.alloc name ty start holds).2.types = m.types ++ [ty] := by
  simp [MethodDraft.alloc, types]

theorem size_alloc
    (m : MethodDraft)
    (name : String)
    (ty : Ty)
    (start : Option Nat)
    (holds : VType) :
    (m.alloc name ty start holds).2.slots.size =
      m.slots.size + ty.width := by
  have hWidth := ty.width_eq
  simp only [MethodDraft.alloc]
  split
  case isTrue hTwo =>
      simp only [Array.size_push]
      omega
  case isFalse hOne =>
      have hLe : ty.slots ≤ 2 := by
        cases ty with
        | primitive p => cases p <;> simp [Ty.slots]
        | _ => simp [Ty.slots]
      simp only [Array.size_push]
      omega

/- A local gets the slots behind all others. -/
theorem Sound.alloc
    {m : MethodDraft}
    (hSound : m.Sound)
    {name : String}
    {ty : Ty}
    {start : Option Nat}
    {holds : VType}
    (hRoom : m.hasRoom ty = true) :
    (m.alloc name ty start holds).2.Sound := by
  have hWidth := ty.width_eq
  have hTypes := m.types_alloc name ty start holds
  have hSize := m.size_alloc name ty start holds
  have hLength : m.types.length = m.locals.size := by
    simp [types]
  simp only [hasRoom, decide_eq_true_eq] at hRoom
  refine ⟨hSound.pool, ?_, ?_, ?_, ?_⟩
  · intro i v hv
    rw [hTypes]
    simp only [MethodDraft.alloc, Array.getElem?_push] at hv
    split at hv
    case isTrue hLast =>
        cases hv
        dsimp only
        rw [hSound.size, hLast, ← hLength,
          Ty.slotOf_append _ (Nat.le_refl _), Ty.slotOf_length]
    case isFalse =>
        rcases Array.getElem?_eq_some_iff.mp hv with ⟨hLt, _⟩
        rw [Ty.slotOf_append _ (by omega)]
        exact hSound.placed i v hv
  · rw [hSize, hTypes, Ty.widths_append, hSound.size]
    rfl
  · rw [hSize]
    omega
  · intro l hl e he
    have hFits := hSound.entries l hl e he
    rw [hSize]
    omega

end MethodDraft

------------------------------------------------------------
-- New Drafts
------------------------------------------------------------

namespace MethodDraft

/- A declared local gets the slots behind all others. -/
theorem declare_eq_ok
    {m m' : MethodDraft}
    {name : String}
    {ty : Ty}
    {holds : VType} :
    m.declare name ty holds = .ok m' ↔
      m.hasRoom ty = true ∧
        m' = (m.alloc name ty (some 0) holds).2 := by
  unfold declare
  split
  case isTrue hRoom => simp [hRoom, eq_comm]
  case isFalse hFull => simp [hFull]

/- What declaring a local keeps, declaring parameters keeps. -/
theorem declareParams_induct
    {P : List Ty → MethodDraft → Prop}
    {m m' : MethodDraft}
    {names : List String}
    {position : Nat}
    {done ts : List Ty}
    (hStep : ∀ done m name, ∀ t ∈ ts, m.hasRoom t = true →
      P done m →
        P (done ++ [t]) (m.alloc name t (some 0) (.ofTy t)).2)
    (hStart : P done m)
    (hDeclare : m.declareParams names position ts = .ok m') :
    P (done ++ ts) m' := by
  induction ts generalizing m names position done with
  | nil =>
      cases hDeclare
      rw [List.append_nil]
      exact hStart
  | cons t ts ih =>
      rw [declareParams] at hDeclare
      cases hOne : m.declare
          (names.head?.getD s!"arg{position}") t (.ofTy t) with
      | error e =>
          rw [hOne] at hDeclare
          cases hDeclare
      | ok m₁ =>
          rw [hOne] at hDeclare
          rcases declare_eq_ok.mp hOne with ⟨hRoom, rfl⟩
          have hRest := ih
            (fun done m name u hu =>
              hStep done m name u (List.mem_cons_of_mem t hu))
            (hStep done m _ t List.mem_cons_self hRoom hStart)
            hDeclare
          rw [List.append_assoc] at hRest
          exact hRest

/- What slots hold is as wide as their locals, or nothing. -/
def Held
    (m : MethodDraft) : Prop :=
  ∀ (i : Nat) (v : LocalVar) (w : VType),
    m.locals[i]? = some v → m.slots[v.slot]? = some w →
      w = .top ∨ w.slots = v.ty.width

/- A draft without code, whose locals are as given. -/
structure Blank
    (ts : List Ty)
    (m : MethodDraft) : Prop where
  sound : m.Sound
  held : m.Held
  types : m.types = ts
  started : ∀ v ∈ m.locals, v.start.isSome
  lines : m.lines = #[]
  offset : m.offset = 0
  stack : m.stack = []
  depth : m.depth = 0
  labels : m.labels = #[]

theorem Held.alloc
    {m : MethodDraft}
    (hSound : m.Sound)
    (hHeld : m.Held)
    {name : String}
    {ty : Ty}
    {start : Option Nat}
    {holds : VType}
    (hHolds : holds = .top ∨ holds.slots = ty.width) :
    (m.alloc name ty start holds).2.Held := by
  have hNew : ∀ (slots : Array VType),
      slots = m.slots.push holds ∨
        slots = (m.slots.push holds).push .top →
      slots[m.slots.size]? = some holds := by
    intro slots hSlots
    rcases hSlots with rfl | rfl
    · simp
    · rw [Array.getElem?_push_lt (by simp)]
      simp
  have hOld : ∀ (slots : Array VType) (k : Nat),
      slots = m.slots.push holds ∨
        slots = (m.slots.push holds).push .top →
      k < m.slots.size → slots[k]? = m.slots[k]? := by
    intro slots k hSlots hLt
    rcases hSlots with rfl | rfl
    · simp [Array.getElem?_push, Nat.ne_of_lt hLt]
    · simp [Array.getElem?_push, Nat.ne_of_lt hLt,
        Nat.ne_of_lt (Nat.lt_succ_of_lt hLt)]
  have hSlots : (m.alloc name ty start holds).2.slots =
      m.slots.push holds ∨
        (m.alloc name ty start holds).2.slots =
          (m.slots.push holds).push .top := by
    simp only [MethodDraft.alloc]
    split
    · exact Or.inr rfl
    · exact Or.inl rfl
  intro i v w hv hw
  simp only [MethodDraft.alloc, Array.getElem?_push] at hv
  split at hv
  case isTrue hLast =>
      cases hv
      rw [hNew _ hSlots] at hw
      cases hw
      exact hHolds
  case isFalse =>
      have hType : m.types[i]? = some v.ty := by
        rw [Sound.types_getElem?, hv]
        rfl
      have hRange := Ty.slotOf_add_width_le_widths hType
      have hPos := v.ty.width_pos
      rw [← hSound.placed i v hv, ← hSound.size] at hRange
      rw [hOld _ v.slot hSlots (by omega)] at hw
      exact hHeld i v w hv hw

/- The slots of the locals have numbers of sixteen bits. -/
def Numbered
    (m : MethodDraft) : Prop :=
  ∀ v ∈ m.locals, v.slot ≤ 65535

/- A new local has the number of the first free slot. -/
theorem Numbered.alloc
    {m : MethodDraft}
    {name : String}
    {ty : Ty}
    {start : Option Nat}
    {holds : VType}
    (hNumbered : m.Numbered)
    (hRoom : m.hasRoom ty = true) :
    (m.alloc name ty start holds).2.Numbered := by
  intro v hIn
  have hFree : m.slots.size + max ty.slots 1 ≤ 65535 := by
    simpa [hasRoom] using hRoom
  rcases Array.mem_push.mp hIn with hOld | rfl
  · exact hNumbered v hOld
  · dsimp only
    omega

/- A draft without code, whatever its locals are. -/
structure Bare
    (m : MethodDraft) : Prop where
  lines : m.lines = #[]
  offset : m.offset = 0
  labels : m.labels = #[]
  stack : m.stack = []
  depth : m.depth = 0
  reachable : m.reachable = true
  fault : m.fault = none
  whole : m.overflow = false

theorem Blank.alloc
    {ts : List Ty}
    {m : MethodDraft}
    (hBlank : m.Blank ts)
    {name : String}
    {ty : Ty}
    {holds : VType}
    (hRoom : m.hasRoom ty = true)
    (hHolds : holds = .top ∨ holds.slots = ty.width) :
    (m.alloc name ty (some 0) holds).2.Blank (ts ++ [ty]) := by
  refine ⟨hBlank.sound.alloc hRoom,
    hBlank.held.alloc hBlank.sound hHolds, ?_, ?_, hBlank.lines,
    hBlank.offset, hBlank.stack, hBlank.depth, hBlank.labels⟩
  · rw [types_alloc, hBlank.types]
  · intro v hv
    rcases Array.mem_push.mp hv with hOld | rfl
    · exact hBlank.started v hOld
    · rfl

end MethodDraft

namespace ClassDraft

/- The types of the receiver's local, if there is one. -/
def receiver
    (c : ClassDraft)
    (access : UInt16) : List Ty :=
  if access &&& staticFlag != 0 then [] else [.ofClass c.name]

variable {c : ClassDraft} {access : UInt16} {name : String}
variable {signature : MethodSig} {paramNames : List String}
variable {m : MethodDraft}

/- A new draft keeps what declaring its locals keeps. -/
theorem method_induct
    {P : List Ty → MethodDraft → Prop}
    (hMethod : c.method access name signature paramNames = .ok m)
    (hStart : ∀ descriptor generic,
      signature.descriptor = .ok descriptor → P [] {
        className := c.name, version := c.version, access, name,
        descriptor, signature := generic, pool := c.pool })
    (hThis : ∀ m holds, m.hasRoom (.ofClass c.name) = true →
      holds = .uninitThis ∨ holds = .object c.name → P [] m →
        P [.ofClass c.name]
          (m.alloc "this" (.ofClass c.name) (some 0) holds).2)
    (hParam : ∀ done m name, ∀ t ∈ signature.params,
      m.hasRoom t = true → P done m →
        P (done ++ [t]) (m.alloc name t (some 0) (.ofTy t)).2) :
    P (c.receiver access ++ signature.params) m := by
  unfold method at hMethod
  cases hDescriptor : signature.descriptor with
  | error e =>
      rw [hDescriptor] at hMethod
      cases hMethod
  | ok descriptor =>
      rw [hDescriptor] at hMethod
      have hBegin := hStart descriptor
        (if signature.signature = descriptor then none
          else some signature.signature) hDescriptor
      dsimp only at hMethod
      unfold receiver
      unfold MethodDraft.declareThis MethodDraft.isStatic at hMethod
      dsimp only at hMethod
      split at hMethod
      case isTrue hStatic =>
          rw [if_pos hStatic]
          exact MethodDraft.declareParams_induct hParam hBegin
            hMethod
      case isFalse hStatic =>
          rw [if_neg hStatic]
          rcases ok_bind.mp hMethod with ⟨m₁, hOne, hRest⟩
          rcases MethodDraft.declare_eq_ok.mp hOne with ⟨hRoom, rfl⟩
          refine MethodDraft.declareParams_induct hParam
            (hThis _ _ hRoom ?_ hBegin) hRest
          split
          · exact Or.inl rfl
          · exact Or.inr rfl

/- A new draft is sound if the pool of its class is. -/
theorem sound_method
    (hPool : c.pool.Sound)
    (hMethod : c.method access name signature paramNames = .ok m) :
    m.Sound := by
  refine method_induct (P := fun _ m => m.Sound) hMethod ?_ ?_ ?_
  · intro descriptor generic _
    refine ⟨hPool, ?_, rfl, Nat.zero_le _, ?_⟩
    · intro i v hv
      simp at hv
    · intro l hl
      simp at hl
  · intro m holds hRoom _ hSound
    exact hSound.alloc hRoom
  · intro done m name t _ hRoom hSound
    exact hSound.alloc hRoom

/- The locals that it has are those of its parameters. -/
theorem numbered_method
    (hMethod : c.method access name signature paramNames = .ok m) :
    m.Numbered := by
  refine method_induct (P := fun _ m => m.Numbered) hMethod
    ?_ ?_ ?_
  · intro descriptor generic _ v hIn
    simp at hIn
  · intro m holds hRoom _ hNumbered
    exact hNumbered.alloc hRoom
  · intro done m name t _ hRoom hNumbered
    exact hNumbered.alloc hRoom

theorem bare_method
    (hMethod : c.method access name signature paramNames = .ok m) :
    m.Bare := by
  refine method_induct (P := fun _ m => m.Bare) hMethod ?_ ?_ ?_
  · intro descriptor generic _
    exact ⟨rfl, rfl, rfl, rfl, rfl, rfl, rfl, rfl⟩
  · intro m holds _ _ hBare
    exact ⟨hBare.lines, hBare.offset, hBare.labels, hBare.stack,
      hBare.depth, hBare.reachable, hBare.fault, hBare.whole⟩
  · intro done m name t _ _ hBare
    exact ⟨hBare.lines, hBare.offset, hBare.labels, hBare.stack,
      hBare.depth, hBare.reachable, hBare.fault, hBare.whole⟩

/- It is blank if its parameters are types of values. -/
theorem blank_method
    (hPool : c.pool.Sound)
    (hValues : ∀ t ∈ signature.params, t.isValue = true)
    (hMethod : c.method access name signature paramNames = .ok m) :
    m.Blank (c.receiver access ++ signature.params) := by
  refine method_induct (P := MethodDraft.Blank) hMethod ?_ ?_ ?_
  · intro descriptor generic _
    refine ⟨⟨hPool, ?_, rfl, Nat.zero_le _, ?_⟩, ?_, rfl, ?_, rfl,
      rfl, rfl, rfl, rfl⟩
    · intro i v hv
      simp at hv
    · intro l hl
      simp at hl
    · intro i v w hv
      simp at hv
    · intro v hv
      simp at hv
  · intro m holds hRoom hHolds hBlank
    refine hBlank.alloc hRoom (Or.inr ?_)
    rcases hHolds with rfl | rfl
    · rfl
    · rfl
  · intro done m name t hIn hRoom hBlank
    refine hBlank.alloc hRoom (Or.inr ?_)
    exact VType.slots_of_family?
      (VType.family?_ofTy (hValues t hIn))

/- It belongs to its class and has the flags it was asked for. -/
theorem header_method
    (hMethod : c.method access name signature paramNames = .ok m) :
    signature.descriptor = .ok m.descriptor ∧
      m.className = c.name ∧ m.access = access ∧ m.name = name ∧
      m.pool = c.pool := by
  refine method_induct (P := fun _ m =>
    signature.descriptor = .ok m.descriptor ∧
      m.className = c.name ∧ m.access = access ∧ m.name = name ∧
      m.pool = c.pool) hMethod ?_ ?_ ?_
  · intro descriptor generic hDescriptor
    exact ⟨hDescriptor, rfl, rfl, rfl, rfl⟩
  · intro m holds _ _ hSame
    exact hSame
  · intro done m name t _ _ hSame
    exact hSame

end ClassDraft

end Stratagem

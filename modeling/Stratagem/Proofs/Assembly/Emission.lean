import Mathlib.Algebra.Ring.Nat
import Stratagem.Proofs.Assembly.Soundness
import Stratagem.Proofs.Code.Flow
import Stratagem.Proofs.Code.Layout

/-
  What it means to write actions into a draft.

  A step that succeeds adds instructions with known actions to
  a draft.  What the draft knows of the stack goes on having
  the widths of what is there, so its bound for the depth is
  high enough.

  Key definitions include:
    * `MethodDraft.Level`
    * `MethodDraft.Tracks`
    * `Emits`

  Main declarations:
    * `MethodDraft.Tracks.push`
    * `MethodDraft.Tracks.pop`
    * `Emits.trans`
    * `Emits.one`
-/

namespace Stratagem

open Jvm

------------------------------------------------------------
-- Tracking the Stack
------------------------------------------------------------

theorem Jvm.VType.totalSlots_eq_sum
    (vs : List VType) :
    VType.totalSlots vs = (vs.map VType.slots).sum := by
  induction vs with
  | nil => rfl
  | cons v vs ih => simp [ih]

/- Slots depend on the widths alone. -/
theorem Jvm.VType.totalSlots_congr
    {vs ws : List VType}
    (hWidths : vs.map VType.slots = ws.map VType.slots) :
    VType.totalSlots vs = VType.totalSlots ws := by
  rw [totalSlots_eq_sum, totalSlots_eq_sum, hWidths]

namespace MethodDraft

/- A draft knows how many slots its stack takes. -/
structure Level
    (m : MethodDraft) : Prop where
  depth : m.depth.toNat = VType.totalSlots m.stack
  high : m.depth.toNat ≤ m.maxStack.toNat

theorem pop_eq
    {m : MethodDraft}
    {v : VType}
    {rest : List VType}
    (hStack : m.stack = v :: rest) :
    m.pop = (v, { m with
      stack := rest
      depth := m.depth - UInt16.ofNat v.slots }) := by
  unfold MethodDraft.pop
  rw [hStack]

namespace Level

variable {m : MethodDraft} {v : VType}

theorem push
    (hLevel : m.Level)
    (hHigh : VType.totalSlots (v :: m.stack) ≤ 65535) :
    (m.push v).Level := by
  have hDepth := hLevel.depth
  rw [VType.totalSlots_cons] at hHigh
  refine ⟨?_, (le_toNat_max _ _).2⟩
  rw [toNat_depth_push (by omega), hDepth, Nat.add_comm]
  rfl

/- A stack that has nothing to take stays as it is. -/
theorem pop
    (hLevel : m.Level) :
    m.pop.2.Level := by
  cases hStack : m.stack with
  | nil =>
      unfold MethodDraft.pop
      rw [hStack]
      exact ⟨hLevel.depth, hLevel.high⟩
  | cons v rest =>
      have hDepth := hLevel.depth
      have hHigh := hLevel.high
      rw [hStack, VType.totalSlots_cons] at hDepth
      have hLess := toNat_depth_sub (m := m) (v := v) (by omega)
      rw [pop_eq hStack]
      refine ⟨?_, ?_⟩
      · rw [hLess]
        dsimp only
        omega
      · rw [hLess]
        dsimp only
        omega

end Level

/- What a draft knows of the stack has the widths of values. -/
structure Tracks
    (m : MethodDraft)
    (vs : List VType) : Prop where
  stack : m.stack.map VType.slots = vs.map VType.slots
  known : ∀ v ∈ m.stack, v ≠ .top
  depth : m.depth.toNat = VType.totalSlots vs
  high : m.depth.toNat ≤ m.maxStack.toNat
  held : m.Held
  values : ∀ t ∈ m.types, t.isValue = true

namespace Tracks

variable {m : MethodDraft} {v w : VType} {vs ws : List VType}

theorem level
    (hTracks : m.Tracks vs) :
    m.Level :=
  ⟨hTracks.depth.trans (VType.totalSlots_congr hTracks.stack.symm),
    hTracks.high⟩

theorem push
    (hTracks : m.Tracks vs)
    (hWidth : v.slots = w.slots)
    (hKnown : v ≠ .top)
    (hHigh : VType.totalSlots (w :: vs) ≤ 65535) :
    (m.push v).Tracks (w :: vs) := by
  have hWidths : (v :: m.stack).map VType.slots =
      (w :: vs).map VType.slots := by
    simp [hTracks.stack, hWidth]
  have hSame := VType.totalSlots_congr hWidths
  have hLevel := hTracks.level.push (hSame ▸ hHigh)
  refine ⟨hWidths, ?_, hLevel.depth.trans hSame, hLevel.high,
    hTracks.held, hTracks.values⟩
  intro x hx
  rcases List.mem_cons.mp hx with rfl | hOld
  · exact hKnown
  · exact hTracks.known x hOld

/- The stack of a draft that tracks values has the same shape. -/
theorem stack_cons
    (hTracks : m.Tracks (w :: vs)) :
    ∃ v rest, m.stack = v :: rest ∧ v.slots = w.slots ∧
      rest.map VType.slots = vs.map VType.slots := by
  have hStack := hTracks.stack
  cases hKnown : m.stack with
  | nil => simp [hKnown] at hStack
  | cons v rest =>
      rw [hKnown] at hStack
      rcases List.cons.inj hStack with ⟨hWidth, hRest⟩
      exact ⟨v, rest, rfl, hWidth, hRest⟩

theorem pop
    (hTracks : m.Tracks (w :: vs)) :
    m.pop.2.Tracks vs ∧ m.pop.1.slots = w.slots ∧
      m.pop.1 ≠ .top := by
  rcases hTracks.stack_cons with ⟨v, rest, hStack, hWidth, hRest⟩
  have hKnown := hTracks.known
  have hLevel := hTracks.level.pop
  rw [hStack] at hKnown
  rw [pop_eq hStack] at hLevel ⊢
  refine ⟨⟨hRest, ?_, ?_, hLevel.high, hTracks.held,
    hTracks.values⟩, hWidth, hKnown v List.mem_cons_self⟩
  · intro x hx
    exact hKnown x (List.mem_cons_of_mem v hx)
  · exact hLevel.depth.trans (VType.totalSlots_congr hRest)

theorem addUp
    (hTracks : m.Tracks vs)
    (sum : Nat) :
    (m.addUp sum).Tracks vs :=
  ⟨hTracks.stack, hTracks.known, hTracks.depth, hTracks.high,
    hTracks.held, hTracks.values⟩

theorem popMany
    (hTracks : m.Tracks (ws ++ vs)) :
    (m.popMany ws.length).Tracks vs := by
  induction ws generalizing m with
  | nil => exact hTracks
  | cons w ws ih => exact ih hTracks.pop.1

/- A reference that becomes an object is as wide as before. -/
theorem replace
    (hTracks : m.Tracks vs)
    {old : VType}
    (name : String)
    (hKnown : old ≠ .top)
    (hWidth : old.slots = 1) :
    (m.replace old (.object name)).Tracks vs := by
  have hSame : ∀ v : VType,
      (if v = old then VType.object name else v).slots =
        v.slots := by
    intro v
    split
    case isTrue hOld =>
        rw [hOld, hWidth]
        rfl
    case isFalse => rfl
  refine ⟨?_, ?_, hTracks.depth, hTracks.high, ?_,
    hTracks.values⟩
  · rw [← hTracks.stack]
    simp only [MethodDraft.replace, List.map_map]
    exact List.map_congr_left fun v _ => hSame v
  · intro v hv
    rcases List.mem_map.mp hv with ⟨u, hu, rfl⟩
    split
    · simp
    · exact hTracks.known u hu
  · intro i v w hv hw
    simp only [MethodDraft.replace, Array.getElem?_map] at hw
    rcases Option.map_eq_some_iff.mp hw with ⟨u, hu, rfl⟩
    rw [hSame]
    rcases hTracks.held i v u hv hu with rfl | hHeld
    · rw [if_neg (Ne.symm hKnown)]
      exact Or.inl rfl
    · exact Or.inr hHeld

end Tracks

end MethodDraft

------------------------------------------------------------
-- Emitted Code
------------------------------------------------------------

/- Bytes that instructions take. -/
def Instruction.sizes
    (is : List Instruction) : Nat :=
  (is.map Instruction.size).sum

theorem LaidOut.append
    {offset : Nat}
    {is js : List Instruction}
    (hFirst : LaidOut offset is)
    (hNext : LaidOut (offset + Instruction.sizes is) js) :
    LaidOut offset (is ++ js) := by
  induction is generalizing offset with
  | nil => exact hNext
  | cons i is ih =>
      rcases hFirst with ⟨rfl, hLegal, hRest⟩
      refine ⟨rfl, hLegal, ih hRest ?_⟩
      rw [Instruction.next, Nat.add_assoc]
      exact hNext

/- What a method is, its code apart. -/
def MethodDraft.header
    (m : MethodDraft) :=
  (m.className, m.version, m.access, m.name, m.descriptor,
    m.signature)

/- A draft that became another by work on its stack alone. -/
structure MethodDraft.SameCode
    (m m' : MethodDraft) : Prop where
  pool : m'.pool = m.pool
  header : m'.header = m.header
  labels : m'.labels = m.labels
  locals : m'.locals = m.locals
  lines : m'.lines = m.lines
  offset : m'.offset = m.offset
  higher : m.maxStack.toNat ≤ m'.maxStack.toNat

namespace MethodDraft

namespace SameCode

variable {m m₁ m' : MethodDraft}

theorem refl
    (m : MethodDraft) :
    m.SameCode m :=
  ⟨rfl, rfl, rfl, rfl, rfl, rfl, Nat.le_refl _⟩

theorem trans
    (hFirst : m.SameCode m₁)
    (hNext : m₁.SameCode m') :
    m.SameCode m' :=
  ⟨hNext.pool.trans hFirst.pool, hNext.header.trans hFirst.header,
    hNext.labels.trans hFirst.labels,
    hNext.locals.trans hFirst.locals,
    hNext.lines.trans hFirst.lines,
    hNext.offset.trans hFirst.offset,
    Nat.le_trans hFirst.higher hNext.higher⟩

theorem types
    (hSame : m.SameCode m') :
    m'.types = m.types := by
  rw [MethodDraft.types, MethodDraft.types, hSame.locals]

theorem push
    (hSame : m.SameCode m')
    (v : VType) :
    m.SameCode (m'.push v) :=
  hSame.trans
    ⟨rfl, rfl, rfl, rfl, rfl, rfl, (le_toNat_max _ _).1⟩

theorem pop
    (hSame : m.SameCode m') :
    m.SameCode m'.pop.2 := by
  refine hSame.trans ?_
  unfold MethodDraft.pop
  split <;>
    exact ⟨rfl, rfl, rfl, rfl, rfl, rfl, Nat.le_refl _⟩

theorem popMany
    (hSame : m.SameCode m')
    (n : Nat) :
    m.SameCode (m'.popMany n) := by
  induction n generalizing m' with
  | zero => exact hSame
  | succ n ih => exact ih hSame.pop

theorem replace
    (hSame : m.SameCode m')
    (old new : VType) :
    m.SameCode (m'.replace old new) :=
  hSame.trans ⟨rfl, rfl, rfl, rfl, rfl, rfl, Nat.le_refl _⟩

theorem addUp
    (hSame : m.SameCode m')
    (sum : Nat) :
    m.SameCode (m'.addUp sum) :=
  hSame.trans ⟨rfl, rfl, rfl, rfl, rfl, rfl, Nat.le_refl _⟩

theorem terminate
    (hSame : m.SameCode m') :
    m.SameCode m'.terminate :=
  hSame.trans ⟨rfl, rfl, rfl, rfl, rfl, rfl, Nat.le_refl _⟩

end SameCode

end MethodDraft

/-
  A draft became another by writing instructions with given
  actions and adding locals of given types.
-/
structure Emits
    (m : MethodDraft)
    (as : List Action)
    (ts : List Ty)
    (m' : MethodDraft) : Prop where
  grown : m.pool.Grown m'.pool
  header : m'.header = m.header
  labels : m'.labels = m.labels
  types : m'.types = m.types ++ ts
  started : ∀ (i : Nat) (v : LocalVar),
    m.locals[i]? = some v → v.start.isSome →
      ∃ v' : LocalVar, m'.locals[i]? = some v' ∧ v'.start.isSome
  code : ∃ is, m'.lines.toList =
      m.lines.toList ++ is.map Line.instruction ∧
    LaidOut m.offset is ∧
    m'.offset = m.offset + Instruction.sizes is ∧
    is.map (Instruction.action? m'.pool) = as.map some
  range : ∀ a ∈ as, ∀ slot width, a.slot? = some (slot, width) →
    slot + width ≤ Ty.widths m'.types
  higher : m.maxStack.toNat ≤ m'.maxStack.toNat
  follows : ∀ frame s s', m.Tracks s.stack →
    Passes frame 65535 s as s' →
      m'.Tracks s'.stack ∧ Passes frame m'.maxStack.toNat s as s'

theorem map_action?_within
    {p q : ConstantPool}
    (hWithin : p.Within q)
    {is : List Instruction}
    {as : List Action}
    (hActions : is.map (Instruction.action? p) = as.map some) :
    is.map (Instruction.action? q) = as.map some := by
  induction is generalizing as with
  | nil => exact hActions
  | cons i is ih =>
      cases as with
      | nil => cases hActions
      | cons a as =>
          rcases List.cons.inj hActions with ⟨hOne, hRest⟩
          rw [List.map_cons, List.map_cons, ih hRest,
            Instruction.action?_within hWithin hOne]

namespace Emits

variable {m m₁ m' : MethodDraft} {as bs : List Action}
variable {ts us : List Ty}

theorem refl
    (m : MethodDraft) :
    Emits m [] [] m := by
  refine ⟨.refl _, rfl, rfl, (List.append_nil _).symm, ?_, ?_,
    ?_, Nat.le_refl _, ?_⟩
  · intro i v hv hStart
    exact ⟨v, hv, hStart⟩
  · exact ⟨[], by simp, trivial, rfl, rfl⟩
  · intro a ha
    cases ha
  · rintro frame s s' hTracks rfl
    exact ⟨hTracks, rfl⟩

theorem trans
    (hFirst : Emits m as ts m₁)
    (hNext : Emits m₁ bs us m') :
    Emits m (as ++ bs) (ts ++ us) m' := by
  refine ⟨hFirst.grown.trans hNext.grown,
    hNext.header.trans hFirst.header,
    hNext.labels.trans hFirst.labels, ?_, ?_, ?_, ?_,
    Nat.le_trans hFirst.higher hNext.higher, ?_⟩
  · rw [hNext.types, hFirst.types, List.append_assoc]
  · intro i v hv hStart
    rcases hFirst.started i v hv hStart with ⟨v₁, hv₁, hStart₁⟩
    exact hNext.started i v₁ hv₁ hStart₁
  · rcases hFirst.code with ⟨is, hLines, hLaid, hEnd, hActions⟩
    rcases hNext.code with ⟨js, hLines', hLaid', hEnd', hActions'⟩
    refine ⟨is ++ js, ?_, ?_, ?_, ?_⟩
    · rw [hLines', hLines, List.map_append, List.append_assoc]
    · rw [hEnd] at hLaid'
      exact hLaid.append hLaid'
    · rw [hEnd', hEnd, Nat.add_assoc]
      simp [Instruction.sizes]
    · rw [List.map_append, List.map_append, hActions',
        map_action?_within hNext.grown.within hActions]
  · intro a ha slot width hSlot
    rcases List.mem_append.mp ha with hOne | hTwo
    · have hRange := hFirst.range a hOne slot width hSlot
      rw [hNext.types, Ty.widths_append]
      omega
    · exact hNext.range a hTwo slot width hSlot
  · intro frame s s' hTracks hPasses
    rcases hPasses.of_append with ⟨s₁, hOne, hTwo⟩
    rcases hFirst.follows frame s s₁ hTracks hOne with
      ⟨hTracks₁, hOne'⟩
    rcases hNext.follows frame s₁ s' hTracks₁ hTwo with
      ⟨hTracks', hTwo'⟩
    exact ⟨hTracks', (hOne'.mono hNext.higher).append hTwo'⟩

/- One instruction that leaves the locals alone. -/
theorem one
    {i : Instruction}
    {a : Action}
    (hGrown : m.pool.Grown m'.pool)
    (hHeader : m'.header = m.header)
    (hLabels : m'.labels = m.labels)
    (hTypes : m'.types = m.types)
    (hStarted : ∀ (i : Nat) (v : LocalVar),
      m.locals[i]? = some v → v.start.isSome →
        ∃ v' : LocalVar,
          m'.locals[i]? = some v' ∧ v'.start.isSome)
    (hLines : m'.lines = m.lines.push (.instruction i))
    (hPlace : i.offset = m.offset)
    (hEnd : m'.offset = m.offset + i.size)
    (hLegal : i.Legal)
    (hAction : i.action? m'.pool = some a)
    (hRange : ∀ slot width, a.slot? = some (slot, width) →
      slot + width ≤ Ty.widths m.types)
    (hHigher : m.maxStack.toNat ≤ m'.maxStack.toNat)
    (hFollows : ∀ frame s s', m.Tracks s.stack →
      a.check frame s = some s' → s'.height ≤ 65535 →
        a.isTerminator = false → m'.Tracks s'.stack) :
    Emits m [a] [] m' := by
  refine ⟨hGrown, hHeader, hLabels, ?_, hStarted, ?_, ?_, hHigher,
    ?_⟩
  · rw [hTypes, List.append_nil]
  · refine ⟨[i], ?_, ⟨hPlace, hLegal, trivial⟩, ?_, ?_⟩
    · rw [hLines]
      simp
    · rw [hEnd]
      simp [Instruction.sizes]
    · rw [List.map_singleton, hAction]
      rfl
  · intro b hb slot width hSlot
    cases List.mem_singleton.mp hb
    rw [hTypes]
    exact hRange slot width hSlot
  · rintro frame s s' hTracks
      ⟨s₁, hCheck, hHigh, hGoesOn, hPlain, rfl⟩
    have hAfter := hFollows frame s s' hTracks hCheck hHigh hGoesOn
    refine ⟨hAfter, s', hCheck, ?_, hGoesOn, hPlain, rfl⟩
    have hDepth := hAfter.depth
    have hBound := hAfter.high
    change VType.totalSlots s'.stack ≤ _
    omega

/- One instruction, and then work on the stack alone. -/
theorem act
    {p : ConstantPool}
    {i : Instruction}
    {a : Action}
    (hGrown : m.pool.Grown p)
    (hPlace : i.offset = m.offset)
    (hLegal : i.Legal)
    (hAction : i.action? p = some a)
    (hRange : ∀ slot width, a.slot? = some (slot, width) →
      slot + width ≤ Ty.widths m.types)
    (hSame : MethodDraft.SameCode
      ({ m with pool := p }.append (.instruction i)) m')
    (hFollows : ∀ frame s s',
      MethodDraft.Tracks
        ({ m with pool := p }.append (.instruction i)) s.stack →
      a.check frame s = some s' → s'.height ≤ 65535 →
        a.isTerminator = false → m'.Tracks s'.stack) :
    Emits m [a] [] m' := by
  refine one (i := i) ?_ hSame.header hSame.labels hSame.types ?_
    hSame.lines hPlace hSame.offset hLegal ?_ hRange hSame.higher
    ?_
  · rw [hSame.pool]
    exact hGrown
  · intro k v hv hStart
    refine ⟨v, ?_, hStart⟩
    rw [hSame.locals]
    exact hv
  · rw [hSame.pool]
    exact hAction
  · intro frame s s' hTracks
    exact hFollows frame s s'
      ⟨hTracks.stack, hTracks.known, hTracks.depth, hTracks.high,
        hTracks.held, hTracks.values⟩

end Emits

------------------------------------------------------------
-- Inverting Steps
------------------------------------------------------------

namespace Emitter

variable {α : Type} {m m' : MethodDraft} {u : Unit}

theorem outcomeOf_pooled
    (x : Pooling α)
    (m : MethodDraft) :
    outcomeOf (pooled x) m =
      ((outcomeOf x m.pool).1,
        { m with pool := (outcomeOf x m.pool).2 }) :=
  rfl

@[simp] theorem yields_pooled
    {x : Pooling α}
    {a : α} :
    Yields (pooled x) m a m' ↔
      ∃ p, Yields x m.pool a p ∧ m' = { m with pool := p } := by
  unfold Yields
  rw [outcomeOf_pooled]
  rcases outcomeOf x m.pool with ⟨result, p⟩
  simp only [Prod.mk.injEq]
  constructor
  · rintro ⟨rfl, rfl⟩
    exact ⟨p, ⟨rfl, rfl⟩, rfl⟩
  · rintro ⟨q, ⟨rfl, rfl⟩, rfl⟩
    exact ⟨rfl, rfl⟩

@[simp] theorem yields_property
    {r : Except TypeError α}
    {a : α} :
    Yields (property r) m a m' ↔ r = .ok a ∧ m' = m := by
  cases r with
  | ok b =>
      rw [property, yields_pure]
      simp [eq_comm]
  | error e => simp [property]

@[simp] theorem yields_write
    {opcode : Opcode}
    {operands : List UInt8} :
    Yields (write opcode operands) m u m' ↔
      m' = m.write opcode operands :=
  yields_modify

@[simp] theorem yields_writeCall
    {kind : CallKind}
    {index : UInt16}
    {params : List Ty} :
    Yields (writeCall kind index params) m u m' ↔
      m' = (m.write kind.opcode
        (be16 index ++ countOperands kind params)).addUp
          (countedSlots kind params) :=
  yields_modify

@[simp] theorem yields_push
    {v : VType} :
    Yields (push v) m u m' ↔ m' = m.push v :=
  yields_modify

@[simp] theorem yields_pop
    {v : VType} :
    Yields pop m v m' ↔ m.pop = (v, m') :=
  yields_modifyGet

end Emitter

end Stratagem

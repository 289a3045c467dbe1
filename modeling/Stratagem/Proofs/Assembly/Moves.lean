import Stratagem.Proofs.Assembly.Measure

/-
  What steps do to the stack of a draft.

  A step that fails has added to the constant pool at most.  A
  step that succeeds leaves a stack that is known, and if the
  instruction that it wrote works on a stack of the same height
  in the same way, then the draft is measured as before.

  Key definitions include:
    * `MethodDraft.SameWidths`
    * `MethodDraft.exchange`
    * `MethodDraft.Idle`
    * `Moves`

  Main declarations:
    * `Measured.moves`
    * `Measured.exchange`
    * `Measured.stops`
-/

namespace Stratagem

open Jvm Emitter

------------------------------------------------------------
-- Stacks
------------------------------------------------------------

namespace MethodDraft

/- A draft whose stack has the widths of another's. -/
structure SameWidths
    (m m' : MethodDraft) : Prop where
  widths : m'.stack.map VType.slots = m.stack.map VType.slots
  depth : m'.depth = m.depth
  maxStack : m'.maxStack = m.maxStack
  reachable : m'.reachable = m.reachable
  overflow : m'.overflow = m.overflow

/- Values are taken from the stack, and others pushed. -/
def exchange
    (m : MethodDraft)
    (count : Nat)
    (vs : List VType) : MethodDraft :=
  vs.foldr (fun v n => n.push v) (m.popMany count)

/- A draft became another by adding to its pool. -/
def Idle
    (m m' : MethodDraft) : Prop :=
  ∃ p, m.pool.Grown p ∧ m' = { m with pool := p }

variable {m m' : MethodDraft} {v : VType} {rest : List VType}

theorem height_of_stack
    (hStack : m.stack = v :: rest) :
    m.height = v.slots + VType.totalSlots rest := by
  rw [height, hStack, VType.totalSlots_cons]

theorem Level.height_le
    (hLevel : m.Level) :
    m.height ≤ 65535 := by
  have hDepth : m.depth.toNat = m.height := hLevel.depth
  have hSmall := m.depth.toNat_lt
  omega

theorem maxStack_pop
    (m : MethodDraft) :
    m.pop.2.maxStack = m.maxStack := by
  unfold MethodDraft.pop
  split <;> rfl

theorem overflow_pop
    (m : MethodDraft) :
    m.pop.2.overflow = m.overflow := by
  unfold MethodDraft.pop
  split <;> rfl

/- What is taken is the top of the stack. -/
theorem pop_top
    (m : MethodDraft) :
    m.pop.1 = m.stack.headD .top := by
  unfold MethodDraft.pop
  cases hStack : m.stack <;> rfl

theorem stack_pop
    (m : MethodDraft) :
    m.pop.2.stack = m.stack.tail := by
  unfold MethodDraft.pop
  cases hStack : m.stack with
  | nil => exact hStack
  | cons v rest => rfl

theorem stack_popMany
    (m : MethodDraft)
    (n : Nat) :
    (m.popMany n).stack = m.stack.drop n := by
  induction n generalizing m with
  | zero => rfl
  | succ n ih =>
      rw [MethodDraft.popMany, ih, stack_pop, List.drop_tail]

/- Nothing is on the stack behind the last line. -/
theorem level_terminate
    (m : MethodDraft) :
    m.terminate.Level :=
  ⟨rfl, Nat.zero_le _⟩

theorem Level.popMany
    (hLevel : m.Level)
    (n : Nat) :
    (m.popMany n).Level := by
  induction n generalizing m with
  | zero => exact hLevel
  | succ n ih => exact ih hLevel.pop

theorem reachable_popMany
    (m : MethodDraft)
    (n : Nat) :
    (m.popMany n).reachable = m.reachable := by
  induction n generalizing m with
  | zero => rfl
  | succ n ih =>
      rw [MethodDraft.popMany, ih]
      unfold MethodDraft.pop
      split <;> rfl

/- The values are pushed onto what is left. -/
theorem stack_exchange
    (m : MethodDraft)
    (n : Nat)
    (vs : List VType) :
    (m.exchange n vs).stack = vs ++ m.stack.drop n := by
  induction vs with
  | nil => exact m.stack_popMany n
  | cons v vs ih => exact congrArg (v :: ·) ih

theorem reachable_exchange
    (m : MethodDraft)
    (n : Nat)
    (vs : List VType) :
    (m.exchange n vs).reachable = m.reachable := by
  induction vs with
  | nil => exact m.reachable_popMany n
  | cons v vs ih => exact ih

/- Unless the stack gets too high, its depth is known. -/
theorem Level.exchange
    {n : Nat}
    {vs : List VType}
    (hLevel : m.Level)
    (hHigh : (m.exchange n vs).height ≤ 65535) :
    (m.exchange n vs).Level := by
  induction vs with
  | nil => exact hLevel.popMany n
  | cons v vs ih =>
      have hHeight : (m.exchange n (v :: vs)).height =
          v.slots + (m.exchange n vs).height := rfl
      exact (ih (by omega)).push hHigh

theorem popMany_add
    (m : MethodDraft)
    (n k : Nat) :
    m.popMany (n + k) = (m.popMany n).popMany k := by
  induction n generalizing m with
  | zero => rw [Nat.zero_add, MethodDraft.popMany]
  | succ n ih =>
      rw [Nat.add_right_comm]
      exact ih m.pop.2

namespace SameWidths

theorem refl
    (m : MethodDraft) :
    m.SameWidths m :=
  ⟨rfl, rfl, rfl, rfl, rfl⟩

theorem height
    (hSame : m.SameWidths m') :
    m'.height = m.height :=
  VType.totalSlots_congr hSame.widths

theorem level
    (hSame : m.SameWidths m')
    (hLevel : m.Level) :
    m'.Level := by
  refine ⟨?_, ?_⟩
  · rw [hSame.depth]
    exact hLevel.depth.trans hSame.height.symm
  · rw [hSame.depth, hSame.maxStack]
    exact hLevel.high

theorem push
    (hSame : m.SameWidths m')
    (v : VType) :
    (m.push v).SameWidths (m'.push v) := by
  refine ⟨?_, ?_, ?_, hSame.reachable, ?_⟩
  · exact congrArg (v.slots :: ·) hSame.widths
  · exact congrArg (· + UInt16.ofNat v.slots) hSame.depth
  · simp only [MethodDraft.push, hSame.maxStack, hSame.depth]
  · simp only [MethodDraft.push, MethodDraft.addUp, hSame.overflow,
      hSame.depth]

theorem pop
    (hSame : m.SameWidths m') :
    m.pop.2.SameWidths m'.pop.2 := by
  have hWidths := hSame.widths
  unfold MethodDraft.pop
  cases hOne : m.stack with
  | nil =>
      rw [hOne] at hWidths
      rw [List.map_eq_nil_iff.mp hWidths]
      exact ⟨hSame.widths, hSame.depth, hSame.maxStack,
        hSame.reachable, hSame.overflow⟩
  | cons v rest =>
      rw [hOne] at hWidths
      rcases List.map_eq_cons_iff.mp hWidths with
        ⟨w, below, hTwo, hWidth, hBelow⟩
      rw [hTwo]
      refine ⟨hBelow, ?_, hSame.maxStack, hSame.reachable,
        hSame.overflow⟩
      simp only [hSame.depth, hWidth]

theorem popMany
    (hSame : m.SameWidths m')
    (n : Nat) :
    (m.popMany n).SameWidths (m'.popMany n) := by
  induction n generalizing m m' with
  | zero => exact hSame
  | succ n ih => exact ih hSame.pop

theorem terminate
    (hSame : m.SameWidths m') :
    m.terminate.SameWidths m'.terminate :=
  ⟨rfl, rfl, hSame.maxStack, rfl, hSame.overflow⟩

/- A reference that becomes an object is as wide as before. -/
theorem replace
    {old : VType}
    (hSame : m.SameWidths m')
    (name : String)
    (hWidth : old.slots = 1) :
    m.SameWidths (m'.replace old (.object name)) := by
  refine ⟨Eq.trans ?_ hSame.widths, hSame.depth, hSame.maxStack,
    hSame.reachable, hSame.overflow⟩
  simp only [MethodDraft.replace, List.map_map]
  refine List.map_congr_left fun v _ => ?_
  by_cases hOld : v = old
  · subst hOld
    rw [Function.comp, if_pos rfl, hWidth]
    rfl
  · rw [Function.comp, if_neg hOld]

end SameWidths

end MethodDraft

/- Entries that a step asks for are there. -/
theorem exists_entry
    {w : Nat}
    {ws : List Nat}
    {stack : List VType}
    (hThere : w :: ws <+: stack.map VType.slots) :
    ∃ v rest, stack = v :: rest ∧ v.slots = w ∧
      ws <+: rest.map VType.slots := by
  cases stack with
  | nil => simp at hThere
  | cons v rest =>
      rw [List.map_cons, List.cons_prefix_cons] at hThere
      exact ⟨v, rest, rfl, hThere.1.symm, hThere.2⟩

theorem exists_entries
    {ws vs : List Nat}
    {stack : List VType}
    (hThere : ws ++ vs <+: stack.map VType.slots) :
    ∃ taken rest, stack = taken ++ rest ∧
      taken.map VType.slots = ws ∧ vs <+: rest.map VType.slots := by
  induction ws generalizing stack with
  | nil => exact ⟨[], stack, rfl, rfl, hThere⟩
  | cons w ws ih =>
      rcases exists_entry hThere with ⟨v, rest, rfl, hWidth, hMore⟩
      rcases ih hMore with ⟨taken, below, rfl, hWidths, hBelow⟩
      exact ⟨v :: taken, below, rfl, by simp [hWidth, hWidths],
        hBelow⟩

------------------------------------------------------------
-- Outcomes
------------------------------------------------------------

/-
  A step that succeeds leaves the stack of a draft `n`, and one
  that fails adds to the pool at most.
-/
def Moves
    (x : Emitter Unit)
    (m n : MethodDraft) : Prop :=
  match outcomeOf x m with
  | (.ok _, m') => n.SameWidths m'
  | (.error _, m') => m.Idle m'

section Outcomes

variable {m m' n : MethodDraft} {α : Type}

theorem moves_of_yields
    {x : Emitter Unit}
    {u : Unit}
    (hRun : Yields x m u m')
    (hSame : n.SameWidths m') :
    Moves x m n := by
  unfold Moves
  rw [hRun]
  exact hSame

/- However a step ends, it moves to a draft that is known. -/
theorem Moves.idle_or_same
    {x : Emitter Unit}
    (hMoves : Moves x m n) :
    m.Idle (outcomeOf x m).2 ∨ n.SameWidths (outcomeOf x m).2 := by
  unfold Moves at hMoves
  rcases hRun : outcomeOf x m with ⟨result, m'⟩
  rw [hRun] at hMoves
  cases result with
  | error e => exact Or.inl hMoves
  | ok u => exact Or.inr hMoves

/- A constant is added first. -/
theorem moves_pooled
    {x : Pooling α}
    {f : α → Emitter Unit}
    (hGrows : x.Grows)
    (hNext : ∀ a p, Moves (f a) { m with pool := p } n) :
    Moves (pooled x >>= f) m n := by
  have hGrown := hGrows m.pool
  unfold Moves
  rw [outcomeOf_bind, outcomeOf_pooled]
  rcases hRun : outcomeOf x m.pool with ⟨result, p⟩
  rw [hRun] at hGrown
  cases result with
  | error e => exact ⟨p, hGrown, rfl⟩
  | ok a =>
      have hRest := hNext a p
      unfold Moves at hRest
      dsimp only
      split
      case h_1 hEnd =>
          rw [hEnd] at hRest
          exact hRest
      case h_2 hEnd =>
          rw [hEnd] at hRest
          rcases hRest with ⟨q, hMore, rfl⟩
          exact ⟨q, hGrown.trans hMore, rfl⟩

theorem moves_property
    {r : Except TypeError α}
    {f : α → Emitter Unit}
    (hNext : ∀ a, r = .ok a → Moves (f a) m n) :
    Moves (property r >>= f) m n := by
  cases r with
  | ok a => exact hNext a rfl
  | error e => exact ⟨m.pool, .refl _, rfl⟩

theorem Measured.of_idle
    {ks : List Mark}
    (hMeasured : Measured m ks)
    (hIdle : m.Idle m') :
    Measured m' ks := by
  rcases hIdle with ⟨p, hGrown, rfl⟩
  exact hMeasured.idle (hMeasured.sound.of_same hGrown rfl rfl rfl)
    ⟨hMeasured.level.depth, hMeasured.level.high⟩ hGrown.within
    (Nat.le_refl _) (Nat.le_refl _) rfl rfl rfl rfl fun _ => rfl

/- Where nothing follows, nothing is pushed. -/
theorem Action.Takes.le_of_isTerminator
    {a : Action}
    {depth after : Nat}
    (hTakes : a.Takes depth after)
    (hLast : a.isTerminator = true) :
    after ≤ depth := by
  rcases hTakes with ⟨base, pops, pushes, hEffect, rfl, rfl⟩
  have hNone : pushes = 0 := by
    cases a with
    | jump c => cases c <;> cases hEffect <;> rfl
    | returnValue f =>
        cases hEffect
        rfl
    | returnVoid =>
        cases hEffect
        rfl
    | throw =>
        cases hEffect
        rfl
    | _ => cases hLast
  omega

/-
  A step that writes one instruction, if the stack that it
  leaves is as high as the instruction makes it.
-/
theorem Measured.moves
    {ks : List Mark}
    {x : Emitter Unit}
    {a : Action}
    {after : Nat}
    (hMeasured : Measured m ks)
    (hSafe : Safe x)
    (hBounded : (outcomeOf x m).2.height ≤ 65535)
    (hMoves : Moves x m n)
    (hWrites : ∀ u m', Yields x m u m' → Writes m a m')
    (hPlain : a.isJump = false)
    (hTakes : a.Takes m.height after)
    (hLevel : n.height ≤ 65535 → n.Level)
    (hNext : a.isTerminator = false →
      n.reachable = true ∧ n.height = after) :
    ∃ ks', Measured (outcomeOf x m).2 ks' := by
  have hSound := (hSafe m).sound hMeasured.sound
  unfold Moves at hMoves
  rcases hRun : outcomeOf x m with ⟨result, m'⟩
  rw [hRun] at hMoves hBounded hSound
  dsimp only at hBounded hSound ⊢
  cases result with
  | error e => exact ⟨ks, hMeasured.of_idle hMoves⟩
  | ok u =>
      have hCode := hWrites u m' hRun
      have hHeight : m'.height = n.height := hMoves.height
      have hLevel' : m'.Level :=
        hMoves.level (hLevel (hHeight ▸ hBounded))
      refine hMeasured.write hSound hLevel' hCode hPlain hTakes ?_ ?_
      · by_cases hLast : a.isTerminator = true
        · have hLess := hTakes.le_of_isTerminator hLast
          have hDepth : m.depth.toNat = m.height :=
            hMeasured.level.depth
          have hHigh := hMeasured.level.high
          have hHigher := hCode.higher
          omega
        · have hSame := (hNext (by simpa using hLast)).2
          have hDepth : m'.depth.toNat = m'.height := hLevel'.depth
          have hHigh := hLevel'.high
          omega
      · intro hGoesOn
        rcases hNext hGoesOn with ⟨hReached, hSame⟩
        exact ⟨hMoves.reachable.trans hReached,
          hHeight.trans hSame⟩

/- A step that exchanges values on top of the stack. -/
theorem Measured.exchange
    {ks : List Mark}
    {x : Emitter Unit}
    {a : Action}
    {taken vs rest : List VType}
    (hMeasured : Measured m ks)
    (hReached : m.reachable = true)
    (hSafe : Safe x)
    (hBounded : (outcomeOf x m).2.height ≤ 65535)
    (hStack : m.stack = taken ++ rest)
    (hMoves : Moves x m (m.exchange taken.length vs))
    (hWrites : ∀ u m', Yields x m u m' → Writes m a m')
    (hEffect : a.effect? =
      some (VType.totalSlots taken, VType.totalSlots vs))
    (hPlain : a.isJump = false) :
    ∃ ks', Measured (outcomeOf x m).2 ks' := by
  have hAfter := m.stack_exchange taken.length vs
  rw [hStack, List.drop_left] at hAfter
  refine hMeasured.moves hSafe hBounded hMoves hWrites hPlain
    ⟨VType.totalSlots rest, _, _, hEffect, ?_, rfl⟩
    hMeasured.level.exchange ?_
  · rw [MethodDraft.height, hStack, VType.totalSlots_append,
      Nat.add_comm]
  · intro _
    refine ⟨(m.reachable_exchange _ _).trans hReached, ?_⟩
    rw [MethodDraft.height, hAfter, VType.totalSlots_append,
      Nat.add_comm]

/- A step that pushes one value. -/
theorem Measured.pushes
    {ks : List Mark}
    {x : Emitter Unit}
    {a : Action}
    {v : VType}
    (hMeasured : Measured m ks)
    (hReached : m.reachable = true)
    (hSafe : Safe x)
    (hBounded : (outcomeOf x m).2.height ≤ 65535)
    (hMoves : Moves x m (m.push v))
    (hWrites : ∀ u m', Yields x m u m' → Writes m a m')
    (hEffect : a.effect? = some (0, v.slots))
    (hPlain : a.isJump = false) :
    ∃ ks', Measured (outcomeOf x m).2 ks' := by
  have hPushed : Moves x m
      (m.exchange ([] : List VType).length [v]) := hMoves
  exact hMeasured.exchange hReached hSafe hBounded
    (List.nil_append _).symm hPushed hWrites hEffect hPlain

/- A step that takes values and never goes on. -/
theorem Measured.stops
    {ks : List Mark}
    {x : Emitter Unit}
    {a : Action}
    {taken rest : List VType}
    (hMeasured : Measured m ks)
    (hSafe : Safe x)
    (hBounded : (outcomeOf x m).2.height ≤ 65535)
    (hStack : m.stack = taken ++ rest)
    (hMoves : Moves x m m.terminate)
    (hWrites : ∀ u m', Yields x m u m' → Writes m a m')
    (hEffect : a.effect? = some (VType.totalSlots taken, 0))
    (hPlain : a.isJump = false)
    (hLast : a.isTerminator = true) :
    ∃ ks', Measured (outcomeOf x m).2 ks' := by
  refine hMeasured.moves hSafe hBounded hMoves hWrites hPlain
    ⟨VType.totalSlots rest, _, _, hEffect, ?_, rfl⟩
    (fun _ => m.level_terminate) ?_
  · rw [MethodDraft.height, hStack, VType.totalSlots_append,
      Nat.add_comm]
  · intro hGoesOn
    rw [hLast] at hGoesOn
    cases hGoesOn

end Outcomes

end Stratagem

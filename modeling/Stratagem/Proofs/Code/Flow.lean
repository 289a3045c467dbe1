import Stratagem.Proofs.Code.Typing

/-
  Which states a piece of code can reach.

  A piece of code that starts in one state reaches each of its
  instructions in one state, every instruction is accepted
  there, and the end of the piece is reached in one state or
  not at all.

  Key definitions include:
    * `CodePoint`
    * `Reached`
    * `Flow`
    * `Passes`

  Main declarations:
    * `Flow.append`
    * `Flow.goOn`
    * `Flow.stopAt`
    * `Flow.skip`
    * `Passes.flow`
-/

namespace Stratagem

------------------------------------------------------------
-- Code
------------------------------------------------------------

/-
  An action in its place: the offset of its instruction, the
  offset behind it, and where it may jump.
-/
structure CodePoint where
  offset : Nat
  next : Nat
  action : Action
  target : Option Nat := none

/- Points that follow one another from one offset to another. -/
def Chained : Nat → List CodePoint → Nat → Prop
  | start, [], stop => start = stop
  | start, q :: code, stop =>
      q.offset = start ∧ q.offset < q.next ∧
        Chained q.next code stop

namespace Chained

variable {start mid stop : Nat} {code code' : List CodePoint}

theorem le
    (hChained : Chained start code stop) :
    start ≤ stop := by
  induction code generalizing start with
  | nil => exact Nat.le_of_eq hChained
  | cons q code ih =>
      rcases hChained with ⟨rfl, hLess, hRest⟩
      have hLe := ih hRest
      omega

/- A point lies between the ends. -/
theorem bounds
    (hChained : Chained start code stop)
    {q : CodePoint}
    (hIn : q ∈ code) :
    start ≤ q.offset ∧ q.offset < q.next ∧ q.next ≤ stop := by
  induction code generalizing start with
  | nil => cases hIn
  | cons r code ih =>
      rcases hChained with ⟨rfl, hLess, hRest⟩
      have hLe := hRest.le
      rcases List.mem_cons.mp hIn with rfl | hTail
      · omega
      · have hInner := ih hRest hTail
        omega

theorem append
    (hFirst : Chained start code mid)
    (hNext : Chained mid code' stop) :
    Chained start (code ++ code') stop := by
  induction code generalizing start with
  | nil =>
      cases hFirst
      exact hNext
  | cons q code ih =>
      rcases hFirst with ⟨hStart, hLess, hRest⟩
      exact ⟨hStart, hLess, ih hRest⟩

/- Two points at one offset are the same. -/
theorem unique
    (hChained : Chained start code stop)
    {q r : CodePoint}
    (hq : q ∈ code)
    (hr : r ∈ code)
    (hOffset : q.offset = r.offset) :
    q = r := by
  induction code generalizing start with
  | nil => cases hq
  | cons first code ih =>
      rcases hChained with ⟨rfl, hLess, hRest⟩
      rcases List.mem_cons.mp hq with rfl | hqTail
      · rcases List.mem_cons.mp hr with rfl | hrTail
        · rfl
        · have hBounds := hRest.bounds hrTail
          omega
      · rcases List.mem_cons.mp hr with rfl | hrTail
        · have hBounds := hRest.bounds hqTail
          omega
        · exact ih hRest hqTail hrTail

end Chained

------------------------------------------------------------
-- Reached States
------------------------------------------------------------

/- The offsets that code reaches from a start, with the states. -/
inductive Reached
    (frame : MethodFrame)
    (code : List CodePoint)
    (start : Nat)
    (s₀ : TypeState) : Nat → TypeState → Prop
  | entry : Reached frame code start s₀ start s₀
  | next
      {q : CodePoint}
      {s s' : TypeState}
      (hBefore : Reached frame code start s₀ q.offset s)
      (hIn : q ∈ code)
      (hCheck : q.action.check frame s = some s')
      (hGoesOn : q.action.isTerminator = false) :
      Reached frame code start s₀ q.next s'
  | jump
      {q : CodePoint}
      {s s' : TypeState}
      {target : Nat}
      (hBefore : Reached frame code start s₀ q.offset s)
      (hIn : q ∈ code)
      (hCheck : q.action.check frame s = some s')
      (hJump : q.action.isJump = true)
      (hTarget : q.target = some target) :
      Reached frame code start s₀ target s'

namespace Reached

variable {frame : MethodFrame} {code code' : List CodePoint}
variable {start mid x : Nat} {s₀ s₁ s : TypeState}

/- More code reaches more. -/
theorem mono
    (hSubset : ∀ q ∈ code, q ∈ code')
    (hReached : Reached frame code start s₀ x s) :
    Reached frame code' start s₀ x s := by
  induction hReached with
  | entry => exact .entry
  | next _ hIn hCheck hGoesOn ih =>
      exact .next ih (hSubset _ hIn) hCheck hGoesOn
  | jump _ hIn hCheck hJump hTarget ih =>
      exact .jump ih (hSubset _ hIn) hCheck hJump hTarget

/- What is reached from a reached state is reached. -/
theorem trans
    (hFirst : Reached frame code start s₀ mid s₁)
    (hNext : Reached frame code mid s₁ x s) :
    Reached frame code start s₀ x s := by
  induction hNext with
  | entry => exact hFirst
  | next _ hIn hCheck hGoesOn ih =>
      exact .next ih hIn hCheck hGoesOn
  | jump _ hIn hCheck hJump hTarget ih =>
      exact .jump ih hIn hCheck hJump hTarget

end Reached

------------------------------------------------------------
-- Flow
------------------------------------------------------------

/- A point goes on in a state, and never too high. -/
def CodePoint.Accepts
    (frame : MethodFrame)
    (limit : Nat)
    (q : CodePoint)
    (s : TypeState) : Prop :=
  (∃ s', q.action.check frame s = some s' ∧ s'.height ≤ limit) ∧
    (q.action.isJump = true → q.target.isSome)

/-
  Code from one offset to another that starts in a state.  The
  end of the code is reached in the state `after`, or not at
  all.
-/
structure Flow
    (frame : MethodFrame)
    (limit : Nat)
    (start : Nat)
    (s₀ : TypeState)
    (code : List CodePoint)
    (stop : Nat)
    (after : Option TypeState) : Prop where
  chained : Chained start code stop
  sound : ∀ x s, Reached frame code start s₀ x s →
    x = stop ∧ after = some s ∨
      ∃ q ∈ code, q.offset = x ∧ q.Accepts frame limit s
  single : ∀ x s s', Reached frame code start s₀ x s →
    Reached frame code start s₀ x s' → s = s'
  covers : ∀ q ∈ code, ∃ s,
    Reached frame code start s₀ q.offset s
  ends : ∀ s, after = some s → Reached frame code start s₀ stop s

namespace Flow

variable {frame : MethodFrame} {limit start mid stop : Nat}
variable {s₀ s₁ : TypeState} {after : Option TypeState}
variable {code code' : List CodePoint}

/- Reached offsets lie between the ends. -/
theorem bounds
    (hFlow : Flow frame limit start s₀ code stop after)
    {x : Nat}
    {s : TypeState}
    (hReached : Reached frame code start s₀ x s) :
    start ≤ x ∧ x ≤ stop := by
  rcases hFlow.sound x s hReached with
    ⟨rfl, _⟩ | ⟨q, hIn, rfl, _⟩
  · exact ⟨hFlow.chained.le, Nat.le_refl _⟩
  · have hBounds := hFlow.chained.bounds hIn
    omega

/-
  What two pieces of code reach together, the one or the other
  reaches: the only way from the first into the second is its
  end.  So a state at a point of the second is reached there,
  and no point of the first is reached in the second.
-/
theorem reached_append
    (hFirst : Flow frame limit start s₀ code mid (some s₁))
    (hNext : Flow frame limit mid s₁ code' stop after)
    {x : Nat}
    {s : TypeState}
    (hReached : Reached frame (code ++ code') start s₀ x s) :
    Reached frame code start s₀ x s ∨
      Reached frame code' mid s₁ x s := by
  have hEnter : ∀ {q : CodePoint} {s : TypeState},
      q ∈ code' → Reached frame code start s₀ q.offset s →
        Reached frame code' mid s₁ q.offset s := by
    intro q s hIn hBefore
    have hBounds := hNext.chained.bounds hIn
    rcases hFirst.sound _ _ hBefore with
      ⟨hMid, hAfter⟩ | ⟨r, hr, hOffset, _⟩
    · cases hAfter
      rw [hMid]
      exact .entry
    · have hInner := hFirst.chained.bounds hr
      omega
  have hLeave : ∀ {q : CodePoint} {s : TypeState},
      q ∈ code → ¬ Reached frame code' mid s₁ q.offset s := by
    intro q s hIn hBefore
    have hBounds := hFirst.chained.bounds hIn
    have hInner := hNext.bounds hBefore
    omega
  induction hReached with
  | entry => exact Or.inl .entry
  | next _ hIn hCheck hGoesOn ih =>
      rcases List.mem_append.mp hIn with hOne | hTwo
      · rcases ih with hBefore | hBefore
        · exact Or.inl (.next hBefore hOne hCheck hGoesOn)
        · exact absurd hBefore (hLeave hOne)
      · rcases ih with hBefore | hBefore
        · exact Or.inr
            (.next (hEnter hTwo hBefore) hTwo hCheck hGoesOn)
        · exact Or.inr (.next hBefore hTwo hCheck hGoesOn)
  | jump _ hIn hCheck hJump hTarget ih =>
      rcases List.mem_append.mp hIn with hOne | hTwo
      · rcases ih with hBefore | hBefore
        · exact Or.inl (.jump hBefore hOne hCheck hJump hTarget)
        · exact absurd hBefore (hLeave hOne)
      · rcases ih with hBefore | hBefore
        · exact Or.inr (.jump (hEnter hTwo hBefore) hTwo hCheck
            hJump hTarget)
        · exact Or.inr (.jump hBefore hTwo hCheck hJump hTarget)

/-
  One piece of code behind another.  Both know the state
  between them.
-/
theorem append
    (hFirst : Flow frame limit start s₀ code mid (some s₁))
    (hNext : Flow frame limit mid s₁ code' stop after) :
    Flow frame limit start s₀ (code ++ code') stop after := by
  have hLeft : ∀ {x s}, Reached frame code start s₀ x s →
      Reached frame (code ++ code') start s₀ x s :=
    Reached.mono fun q hq => List.mem_append_left _ hq
  have hRight : ∀ {x s}, Reached frame code' mid s₁ x s →
      Reached frame (code ++ code') start s₀ x s := by
    intro x s hReached
    refine (hLeft (hFirst.ends s₁ rfl)).trans ?_
    exact hReached.mono fun q hq => List.mem_append_right _ hq
  have hMeet : ∀ {x s s'}, Reached frame code start s₀ x s →
      Reached frame code' mid s₁ x s' → s = s' := by
    intro x s s' hOne hTwo
    have hBounds := hFirst.bounds hOne
    have hInner := hNext.bounds hTwo
    have hMid : x = mid := by omega
    subst hMid
    rw [hNext.single _ s' s₁ hTwo .entry]
    exact hFirst.single _ s s₁ hOne (hFirst.ends s₁ rfl)
  refine ⟨hFirst.chained.append hNext.chained, ?_, ?_, ?_, ?_⟩
  · intro x s hReached
    have hSecond : Reached frame code' mid s₁ x s →
        x = stop ∧ after = some s ∨
          ∃ q ∈ code ++ code',
            q.offset = x ∧ q.Accepts frame limit s := by
      intro hTwo
      rcases hNext.sound x s hTwo with hEnd | ⟨q, hIn, hq⟩
      · exact Or.inl hEnd
      · exact Or.inr ⟨q, List.mem_append_right _ hIn, hq⟩
    rcases reached_append hFirst hNext hReached with hOne | hTwo
    · rcases hFirst.sound x s hOne with
        ⟨rfl, hAfter⟩ | ⟨q, hIn, hq⟩
      · cases hAfter
        exact hSecond .entry
      · exact Or.inr ⟨q, List.mem_append_left _ hIn, hq⟩
    · exact hSecond hTwo
  · intro x s s' hReached hReached'
    rcases reached_append hFirst hNext hReached with hOne | hTwo
    · rcases reached_append hFirst hNext hReached' with
        hOne' | hTwo'
      · exact hFirst.single x s s' hOne hOne'
      · exact hMeet hOne hTwo'
    · rcases reached_append hFirst hNext hReached' with
        hOne' | hTwo'
      · exact (hMeet hOne' hTwo).symm
      · exact hNext.single x s s' hTwo hTwo'
  · intro q hIn
    rcases List.mem_append.mp hIn with hOne | hTwo
    · rcases hFirst.covers q hOne with ⟨s, hReached⟩
      exact ⟨s, hLeft hReached⟩
    · rcases hNext.covers q hTwo with ⟨s, hReached⟩
      exact ⟨s, hRight hReached⟩
  · intro s hAfter
    exact hRight (hNext.ends s hAfter)

/- No code at all. -/
theorem nil
    (frame : MethodFrame)
    (limit start : Nat)
    (s₀ : TypeState) :
    Flow frame limit start s₀ [] start (some s₀) := by
  have hOnly : ∀ {x s}, Reached frame [] start s₀ x s →
      x = start ∧ s = s₀ := by
    intro x s hReached
    cases hReached with
    | entry => exact ⟨rfl, rfl⟩
    | next _ hIn _ _ => cases hIn
    | jump _ hIn _ _ _ => cases hIn
  refine ⟨rfl, ?_, ?_, ?_, ?_⟩
  · intro x s hReached
    rcases hOnly hReached with ⟨rfl, rfl⟩
    exact Or.inl ⟨rfl, rfl⟩
  · intro x s s' hReached hReached'
    rw [(hOnly hReached).2, (hOnly hReached').2]
  · intro q hIn
    cases hIn
  · intro s hAfter
    cases hAfter
    exact .entry

section OnePoint

variable {q : CodePoint}

/- One instruction that goes on with the next. -/
theorem goOn
    (hSize : q.offset < q.next)
    (hCheck : q.action.check frame s₀ = some s₁)
    (hHigh : s₁.height ≤ limit)
    (hGoesOn : q.action.isTerminator = false)
    (hPlain : q.action.isJump = false) :
    Flow frame limit q.offset s₀ [q] q.next (some s₁) := by
  have hOnly : ∀ {x s}, Reached frame [q] q.offset s₀ x s →
      x = q.offset ∧ s = s₀ ∨ x = q.next ∧ s = s₁ := by
    intro x s hReached
    induction hReached with
    | entry => exact Or.inl ⟨rfl, rfl⟩
    | next _ hIn hStep _ ih =>
        cases List.mem_singleton.mp hIn
        rcases ih with ⟨_, rfl⟩ | ⟨hOffset, _⟩
        · rw [hCheck] at hStep
          cases hStep
          exact Or.inr ⟨rfl, rfl⟩
        · omega
    | jump _ hIn _ hJump _ _ =>
        cases List.mem_singleton.mp hIn
        rw [hPlain] at hJump
        cases hJump
  refine ⟨⟨rfl, hSize, rfl⟩, ?_, ?_, ?_, ?_⟩
  · intro x s hReached
    rcases hOnly hReached with ⟨rfl, rfl⟩ | ⟨rfl, rfl⟩
    · refine Or.inr ⟨q, List.mem_singleton.mpr rfl, rfl,
        ⟨s₁, hCheck, hHigh⟩, ?_⟩
      rw [hPlain]
      exact nofun
    · exact Or.inl ⟨rfl, rfl⟩
  · intro x s s' hReached hReached'
    rcases hOnly hReached with ⟨rfl, rfl⟩ | ⟨rfl, rfl⟩
    · rcases hOnly hReached' with ⟨_, rfl⟩ | ⟨hOffset, _⟩
      · rfl
      · omega
    · rcases hOnly hReached' with ⟨hOffset, _⟩ | ⟨_, rfl⟩
      · omega
      · rfl
  · intro r hIn
    cases List.mem_singleton.mp hIn
    exact ⟨s₀, .entry⟩
  · intro s hAfter
    cases hAfter
    exact .next .entry (List.mem_singleton.mpr rfl) hCheck hGoesOn

/- One instruction that goes nowhere. -/
theorem stopAt
    (hSize : q.offset < q.next)
    (hCheck : q.action.check frame s₀ = some s₁)
    (hHigh : s₁.height ≤ limit)
    (hStops : q.action.isTerminator = true)
    (hPlain : q.action.isJump = false) :
    Flow frame limit q.offset s₀ [q] q.next none := by
  have hOnly : ∀ {x s}, Reached frame [q] q.offset s₀ x s →
      x = q.offset ∧ s = s₀ := by
    intro x s hReached
    cases hReached with
    | entry => exact ⟨rfl, rfl⟩
    | next _ hIn _ hGoesOn =>
        cases List.mem_singleton.mp hIn
        rw [hStops] at hGoesOn
        cases hGoesOn
    | jump _ hIn _ hJump _ =>
        cases List.mem_singleton.mp hIn
        rw [hPlain] at hJump
        cases hJump
  refine ⟨⟨rfl, hSize, rfl⟩, ?_, ?_, ?_, ?_⟩
  · intro x s hReached
    rcases hOnly hReached with ⟨rfl, rfl⟩
    refine Or.inr ⟨q, List.mem_singleton.mpr rfl, rfl,
      ⟨s₁, hCheck, hHigh⟩, ?_⟩
    rw [hPlain]
    exact nofun
  · intro x s s' hReached hReached'
    rw [(hOnly hReached).2, (hOnly hReached').2]
  · intro r hIn
    cases List.mem_singleton.mp hIn
    exact ⟨s₀, .entry⟩
  · intro s hAfter
    cases hAfter

/-
  Behind a jump over code, only the jump, its target and the
  code are reached: the jump with the state before it, and the
  points of the code from their start.
-/
theorem reached_skip
    (hSize : q.offset < q.next)
    (hCheck : q.action.check frame s₀ = some s₁)
    (hTarget : q.target = some stop)
    (hBlock : Flow frame limit q.next s₁ code stop none)
    {x : Nat}
    {s : TypeState}
    (hReached : Reached frame (q :: code) q.offset s₀ x s) :
    x = q.offset ∧ s = s₀ ∨ x = stop ∧ s = s₁ ∨
      Reached frame code q.next s₁ x s := by
  have hLe := hBlock.chained.le
  have hFirst : ∀ {s},
      (q.offset = q.offset ∧ s = s₀ ∨
        q.offset = stop ∧ s = s₁ ∨
        Reached frame code q.next s₁ q.offset s) → s = s₀ := by
    intro s hCases
    rcases hCases with ⟨_, hSame⟩ | ⟨hEnd, _⟩ | hInner
    · exact hSame
    · omega
    · have hBounds := hBlock.bounds hInner
      omega
  have hRest : ∀ {r : CodePoint} {s}, r ∈ code →
      (r.offset = q.offset ∧ s = s₀ ∨
        r.offset = stop ∧ s = s₁ ∨
        Reached frame code q.next s₁ r.offset s) →
      Reached frame code q.next s₁ r.offset s := by
    intro r s hIn hCases
    have hBounds := hBlock.chained.bounds hIn
    rcases hCases with ⟨hStart, _⟩ | ⟨hEnd, _⟩ | hInner
    · omega
    · omega
    · exact hInner
  induction hReached with
  | entry => exact Or.inl ⟨rfl, rfl⟩
  | next _ hIn hStep hGo ih =>
      rcases List.mem_cons.mp hIn with rfl | hTail
      · rw [hFirst ih, hCheck] at hStep
        cases hStep
        exact Or.inr (Or.inr .entry)
      · exact Or.inr (Or.inr (.next (hRest hTail ih) hTail hStep hGo))
  | jump _ hIn hStep hj ht ih =>
      rcases List.mem_cons.mp hIn with rfl | hTail
      · rw [hFirst ih, hCheck] at hStep
        rw [hTarget] at ht
        cases hStep
        cases ht
        exact Or.inr (Or.inl ⟨rfl, rfl⟩)
      · exact Or.inr
          (Or.inr (.jump (hRest hTail ih) hTail hStep hj ht))

/- Code whose end is not reached has no state there. -/
theorem not_reached_stop
    (hBlock : Flow frame limit start s₀ code stop none)
    (s : TypeState) :
    ¬ Reached frame code start s₀ stop s := by
  intro hInner
  rcases hBlock.sound stop s hInner with
    ⟨_, hNone⟩ | ⟨r, hIn, hOffset, _⟩
  · cases hNone
  · have hBounds := hBlock.chained.bounds hIn
    omega

/- A jump over code whose end is not reached otherwise. -/
theorem skip
    (hSize : q.offset < q.next)
    (hCheck : q.action.check frame s₀ = some s₁)
    (hHigh : s₁.height ≤ limit)
    (hGoesOn : q.action.isTerminator = false)
    (hJump : q.action.isJump = true)
    (hTarget : q.target = some stop)
    (hBlock : Flow frame limit q.next s₁ code stop none) :
    Flow frame limit q.offset s₀ (q :: code) stop
      (some s₁) := by
  have hHead : q ∈ q :: code := List.mem_cons_self
  have hOnly := fun x s =>
    reached_skip hSize hCheck hTarget hBlock (x := x) (s := s)
  have hEnd := hBlock.not_reached_stop
  have hInside : ∀ {x s}, Reached frame code q.next s₁ x s →
      Reached frame (q :: code) q.offset s₀ x s := by
    intro x s hInner
    have hNext : Reached frame (q :: code) q.offset s₀ q.next s₁ :=
      .next .entry hHead hCheck hGoesOn
    exact hNext.trans
      (hInner.mono fun r hr => List.mem_cons_of_mem q hr)
  have hLe := hBlock.chained.le
  refine ⟨⟨rfl, hSize, hBlock.chained⟩, ?_, ?_, ?_, ?_⟩
  · intro x s hReached
    rcases hOnly x s hReached with
      ⟨rfl, rfl⟩ | ⟨rfl, rfl⟩ | hInner
    · refine Or.inr ⟨q, hHead, rfl, ⟨s₁, hCheck, hHigh⟩, ?_⟩
      intro _
      rw [hTarget]
      rfl
    · exact Or.inl ⟨rfl, rfl⟩
    · rcases hBlock.sound x s hInner with
        ⟨_, hNone⟩ | ⟨r, hIn, hr⟩
      · cases hNone
      · exact Or.inr ⟨r, List.mem_cons_of_mem q hIn, hr⟩
  · intro x s s' hReached hReached'
    rcases hOnly x s hReached with
      ⟨rfl, rfl⟩ | ⟨rfl, rfl⟩ | hInner
    · rcases hOnly _ s' hReached' with
        ⟨_, rfl⟩ | ⟨hStop, _⟩ | hInner'
      · rfl
      · omega
      · have hBounds := hBlock.bounds hInner'
        omega
    · rcases hOnly _ s' hReached' with
        ⟨hStart, _⟩ | ⟨_, rfl⟩ | hInner'
      · omega
      · rfl
      · exact absurd hInner' (hEnd s')
    · rcases hOnly x s' hReached' with
        ⟨rfl, _⟩ | ⟨rfl, _⟩ | hInner'
      · have hBounds := hBlock.bounds hInner
        omega
      · exact absurd hInner (hEnd s)
      · exact hBlock.single x s s' hInner hInner'
  · intro r hIn
    rcases List.mem_cons.mp hIn with rfl | hTail
    · exact ⟨s₀, .entry⟩
    · rcases hBlock.covers r hTail with ⟨s, hInner⟩
      exact ⟨s, hInside hInner⟩
  · intro s hAfter
    cases hAfter
    exact .jump .entry hHead hCheck hJump hTarget

end OnePoint

/- A higher limit accepts as much. -/
theorem mono
    {limit' : Nat}
    (hLimit : limit ≤ limit')
    (hFlow : Flow frame limit start s₀ code stop after) :
    Flow frame limit' start s₀ code stop after := by
  refine ⟨hFlow.chained, ?_, hFlow.single, hFlow.covers,
    hFlow.ends⟩
  intro x s hReached
  rcases hFlow.sound x s hReached with
    hEnd | ⟨q, hIn, hOffset, ⟨s', hCheck, hHigh⟩, hTarget⟩
  · exact Or.inl hEnd
  · exact Or.inr ⟨q, hIn, hOffset,
      ⟨s', hCheck, Nat.le_trans hHigh hLimit⟩, hTarget⟩

end Flow

------------------------------------------------------------
-- Straight Code
------------------------------------------------------------

/- Actions one after another lead from one state to another. -/
def Passes
    (frame : MethodFrame)
    (limit : Nat) :
    TypeState → List Action → TypeState → Prop
  | s, [], s' => s' = s
  | s, a :: as, s' =>
      ∃ s₁, a.check frame s = some s₁ ∧ s₁.height ≤ limit ∧
        a.isTerminator = false ∧ a.isJump = false ∧
        Passes frame limit s₁ as s'

namespace Passes

variable {frame : MethodFrame} {limit : Nat}
variable {s s₁ s' : TypeState} {as bs : List Action}

theorem append
    (hFirst : Passes frame limit s as s₁)
    (hNext : Passes frame limit s₁ bs s') :
    Passes frame limit s (as ++ bs) s' := by
  induction as generalizing s with
  | nil =>
      cases hFirst
      exact hNext
  | cons a as ih =>
      rcases hFirst with
        ⟨t, hCheck, hHigh, hGoesOn, hPlain, hRest⟩
      exact ⟨t, hCheck, hHigh, hGoesOn, hPlain, ih hRest⟩

theorem of_append
    (hBoth : Passes frame limit s (as ++ bs) s') :
    ∃ s₁, Passes frame limit s as s₁ ∧
      Passes frame limit s₁ bs s' := by
  induction as generalizing s with
  | nil => exact ⟨s, rfl, hBoth⟩
  | cons a as ih =>
      rcases hBoth with
        ⟨t, hCheck, hHigh, hGoesOn, hPlain, hRest⟩
      rcases ih hRest with ⟨s₁, hFirst, hNext⟩
      exact ⟨s₁, ⟨t, hCheck, hHigh, hGoesOn, hPlain, hFirst⟩,
        hNext⟩

theorem mono
    {limit' : Nat}
    (hLimit : limit ≤ limit')
    (hPasses : Passes frame limit s as s') :
    Passes frame limit' s as s' := by
  induction as generalizing s with
  | nil => exact hPasses
  | cons a as ih =>
      rcases hPasses with
        ⟨t, hCheck, hHigh, hGoesOn, hPlain, hRest⟩
      exact ⟨t, hCheck, Nat.le_trans hHigh hLimit, hGoesOn,
        hPlain, ih hRest⟩

/- Points with these actions lead from state to state. -/
theorem flow
    {start stop : Nat}
    {code : List CodePoint}
    (hPasses : Passes frame limit s as s')
    (hChained : Chained start code stop)
    (hActions : code.map CodePoint.action = as) :
    Flow frame limit start s code stop (some s') := by
  induction as generalizing s start code with
  | nil =>
      rw [List.map_eq_nil_iff.mp hActions] at hChained ⊢
      cases hChained
      cases hPasses
      exact .nil frame limit _ _
  | cons a as ih =>
      cases code with
      | nil => cases hActions
      | cons q code =>
          rcases List.cons.inj hActions with ⟨rfl, hRestActions⟩
          rcases hChained with ⟨rfl, hSize, hRestChained⟩
          rcases hPasses with
            ⟨t, hCheck, hHigh, hGoesOn, hPlain, hRest⟩
          have hHead :=
            Flow.goOn hSize hCheck hHigh hGoesOn hPlain
          exact hHead.append (ih hRest hRestChained hRestActions)

end Passes

end Stratagem

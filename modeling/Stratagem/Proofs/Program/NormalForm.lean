import Stratagem.Proofs.Program.NormalMeaning

/-
  Normal forms are normal, and normalizing leaves them alone.

  Flattening turns an expression into computations in a row.
  None of them has a computation for an operand, so that there
  is nothing left to flatten in any of them.

  Key definitions include:
    * `Exp.IsStep`
    * `Flat.InSteps`

  Main declarations:
    * `Exp.flatten_fails`
    * `Exp.flatten_inSteps`
    * `Flat.flatten_nest`
    * `Exp.normalize_projects`
-/

namespace Stratagem

------------------------------------------------------------
-- Sequences
------------------------------------------------------------

/- An operand with a sequence in it cannot be flattened. -/
theorem operand_fails
    {e : Exp}
    {c : Nat}
    {err : CompileError}
    (hSeq : e.isSeqFree = false)
    (hFails : Fails e.flatten c err) :
    Fails (Flat.operand e e.flatten) c err := by
  have hComputes : ¬ e.isImmediate = true := by
    intro hImmediate
    cases e <;> simp_all [Exp.isImmediate, Exp.isSeqFree]
  unfold Flat.operand
  rw [if_neg hComputes]
  exact hFails.bind_first

mutual

/- An expression with a sequence in it cannot be flattened. -/
theorem Exp.flatten_fails
    (e : Exp)
    (c : Nat)
    (hSeq : e.isSeqFree = false) :
    Fails e.flatten c (.unsupported .normalizedSequence) := by
  cases e with
  | letIn name bound body ty =>
      simp only [Exp.isSeqFree, Bool.and_eq_false_iff] at hSeq
      by_cases hBound : bound.isSeqFree = true
      · rcases bound.exists_flatten c hBound with ⟨f, c₁, hFlat⟩
        have hBody : body.isSeqFree = false := by
          simpa [hBound] using hSeq
        exact Fails.bind_next hFlat
          (body.flatten_fails c₁ hBody).bind_first
      · rw [Bool.not_eq_true] at hBound
        exact (bound.flatten_fails c hBound).bind_first
  | apply function args ty =>
      simp only [Exp.isSeqFree, Bool.and_eq_false_iff] at hSeq
      by_cases hFunction : function.isSeqFree = true
      · rcases exists_operand function c
            (function.exists_flatten c hFunction) with
          ⟨f, c₁, hFlat⟩
        have hArgs : areSeqFree args = false := by
          simpa [hFunction] using hSeq
        exact Fails.bind_next hFlat
          (flattenArgs_fails args c₁ hArgs).bind_first
      · rw [Bool.not_eq_true] at hFunction
        have hFails := function.flatten_fails c hFunction
        exact (operand_fails hFunction hFails).bind_first
  | eval strategy input ty =>
      simp only [Exp.isSeqFree, Bool.and_eq_false_iff] at hSeq
      by_cases hStrategy : strategy.isSeqFree = true
      · rcases exists_operand strategy c
            (strategy.exists_flatten c hStrategy) with
          ⟨s, c₁, hFlat⟩
        have hInput : input.isSeqFree = false := by
          simpa [hStrategy] using hSeq
        have hFails := input.flatten_fails c₁ hInput
        exact Fails.bind_next hFlat
          (operand_fails hInput hFails).bind_first
      · rw [Bool.not_eq_true] at hStrategy
        have hFails := strategy.flatten_fails c hStrategy
        exact (operand_fails hStrategy hFails).bind_first
  | seq first second ty => rfl
  | var name pointer ty => simp [Exp.isSeqFree] at hSeq
  | int value ty => simp [Exp.isSeqFree] at hSeq
  | str value ty => simp [Exp.isSeqFree] at hSeq
  | object ty => simp [Exp.isSeqFree] at hSeq

theorem flattenArgs_fails
    (es : List Exp)
    (c : Nat)
    (hSeq : areSeqFree es = false) :
    Fails (flattenArgs es) c
      (.unsupported .normalizedSequence) := by
  cases es with
  | nil => simp [areSeqFree] at hSeq
  | cons e es =>
      simp only [areSeqFree, Bool.and_eq_false_iff] at hSeq
      by_cases hHead : e.isSeqFree = true
      · rcases exists_operand e c (e.exists_flatten c hHead) with
          ⟨f, c₁, hFlat⟩
        have hTail : areSeqFree es = false := by
          simpa [hHead] using hSeq
        exact Fails.bind_next hFlat
          (flattenArgs_fails es c₁ hTail).bind_first
      · rw [Bool.not_eq_true] at hHead
        have hFails := e.flatten_fails c hHead
        exact (operand_fails hHead hFails).bind_first

end

------------------------------------------------------------
-- Steps
------------------------------------------------------------

/- One computation, or none, on operands that are immediate. -/
structure Exp.IsStep
    (e : Exp) : Prop where
  compound : e.isCompound = true
  seqFree : e.isSeqFree = true

/- Computations in a row. -/
structure Flat.InSteps
    (f : Flat) : Prop where
  bindings : ∀ b ∈ f.bindings, b.bound.IsStep
  result : f.result.IsStep

theorem Flat.InSteps.tail
    {b : Binding}
    {bs : List Binding}
    {result : Exp}
    (hSteps : (Flat.mk (b :: bs) result).InSteps) :
    (Flat.mk bs result).InSteps where
  bindings x hx := hSteps.bindings x (List.mem_cons_of_mem b hx)
  result := hSteps.result

theorem Exp.IsStep.of_immediate
    {e : Exp}
    (hImmediate : e.isImmediate = true) :
    e.IsStep := by
  cases e with
  | var name pointer ty => exact ⟨rfl, rfl⟩
  | int value ty => exact ⟨rfl, rfl⟩
  | str value ty => exact ⟨rfl, rfl⟩
  | object ty => exact ⟨rfl, rfl⟩
  | letIn name bound body ty => cases hImmediate
  | apply function args ty => cases hImmediate
  | eval strategy input ty => cases hImmediate
  | seq first second ty => cases hImmediate

theorem areSeqFree_of_immediate
    {es : List Exp}
    (hImmediate : es.all Exp.isImmediate = true) :
    areSeqFree es = true := by
  induction es with
  | nil => rfl
  | cons e es ih =>
      simp only [List.all_cons, Bool.and_eq_true] at hImmediate
      simp only [areSeqFree, Bool.and_eq_true]
      exact ⟨(Exp.IsStep.of_immediate hImmediate.1).seqFree,
        ih hImmediate.2⟩

/- An operand is immediate behind its bindings. -/
theorem operand_inSteps
    {e : Exp}
    {c c' : Nat}
    {f : Flat}
    (hFlat : Yields (Flat.operand e e.flatten) c f c')
    (hSteps : ∀ {c' g}, Yields e.flatten c g c' → g.InSteps) :
    (∀ b ∈ f.bindings, b.bound.IsStep) ∧
      f.result.isImmediate = true := by
  unfold Flat.operand at hFlat
  by_cases hImmediate : e.isImmediate = true
  · rw [if_pos hImmediate, yields_pure] at hFlat
    rcases hFlat with ⟨rfl, rfl⟩
    exact ⟨by simp, hImmediate⟩
  · rw [if_neg hImmediate] at hFlat
    simp only [yields_bind, yields_pure] at hFlat
    rcases hFlat with ⟨g, c₁, hFlat, name, c₂, hFresh, rfl, rfl⟩
    have hInner := hSteps hFlat
    refine ⟨?_, rfl⟩
    intro b hb
    rcases List.mem_append.mp hb with hb | hb
    · exact hInner.bindings b hb
    · rw [List.mem_singleton.mp hb]
      exact hInner.result

mutual

/- Flattening leaves computations in a row. -/
theorem Exp.flatten_inSteps
    (e : Exp)
    {c c' : Nat}
    {f : Flat}
    (hFlat : Yields e.flatten c f c') :
    f.InSteps := by
  cases e with
  | letIn name bound body ty =>
      simp only [Exp.flatten, yields_bind, yields_pure] at hFlat
      rcases hFlat with
        ⟨g, c₁, hBound, rest, c₂, hBody, rfl, rfl⟩
      have hFirst := bound.flatten_inSteps hBound
      have hRest := body.flatten_inSteps hBody
      refine ⟨?_, hRest.result⟩
      intro b hb
      rcases List.mem_append.mp hb with hb | hb
      · exact hFirst.bindings b hb
      · rcases List.mem_cons.mp hb with rfl | hb
        · exact hFirst.result
        · exact hRest.bindings b hb
  | apply function args ty =>
      simp only [Exp.flatten, yields_bind, yields_pure] at hFlat
      rcases hFlat with
        ⟨g, c₁, hFunction, ⟨bindings, results⟩, c₂, hArgs, rfl,
          rfl⟩
      rcases operand_inSteps hFunction fun h =>
          function.flatten_inSteps h with
        ⟨hFirst, hOperand⟩
      rcases flattenArgs_inSteps args hArgs with
        ⟨hRest, hOperands⟩
      refine ⟨?_, ?_, ?_⟩
      · intro b hb
        exact (List.mem_append.mp hb).elim (hFirst b) (hRest b)
      · simp [Exp.isCompound, hOperand, hOperands]
      · have hFree := (Exp.IsStep.of_immediate hOperand).seqFree
        simp [Exp.isSeqFree, hFree,
          areSeqFree_of_immediate hOperands]
  | eval strategy input ty =>
      simp only [Exp.flatten, yields_bind, yields_pure] at hFlat
      rcases hFlat with
        ⟨s, c₁, hStrategy, i, c₂, hInput, rfl, rfl⟩
      rcases operand_inSteps hStrategy fun h =>
          strategy.flatten_inSteps h with
        ⟨hFirst, hLeft⟩
      rcases operand_inSteps hInput fun h =>
          input.flatten_inSteps h with
        ⟨hRest, hRight⟩
      refine ⟨?_, ?_, ?_⟩
      · intro b hb
        exact (List.mem_append.mp hb).elim (hFirst b) (hRest b)
      · simp [Exp.isCompound, hLeft, hRight]
      · simp [Exp.isSeqFree,
          (Exp.IsStep.of_immediate hLeft).seqFree,
          (Exp.IsStep.of_immediate hRight).seqFree]
  | seq first second ty => simp [Exp.flatten] at hFlat
  | var name pointer ty =>
      simp only [Exp.flatten, yields_pure] at hFlat
      rcases hFlat with ⟨rfl, rfl⟩
      exact ⟨by simp, .of_immediate rfl⟩
  | int value ty =>
      simp only [Exp.flatten, yields_pure] at hFlat
      rcases hFlat with ⟨rfl, rfl⟩
      exact ⟨by simp, .of_immediate rfl⟩
  | str value ty =>
      simp only [Exp.flatten, yields_pure] at hFlat
      rcases hFlat with ⟨rfl, rfl⟩
      exact ⟨by simp, .of_immediate rfl⟩
  | object ty =>
      simp only [Exp.flatten, yields_pure] at hFlat
      rcases hFlat with ⟨rfl, rfl⟩
      exact ⟨by simp, .of_immediate rfl⟩

theorem flattenArgs_inSteps
    (es : List Exp)
    {c c' : Nat}
    {bindings : List Binding}
    {results : List Exp}
    (hFlat : Yields (flattenArgs es) c (bindings, results) c') :
    (∀ b ∈ bindings, b.bound.IsStep) ∧
      results.all Exp.isImmediate = true := by
  cases es with
  | nil =>
      simp only [flattenArgs, yields_pure, Prod.mk.injEq] at hFlat
      rcases hFlat with ⟨⟨rfl, rfl⟩, rfl⟩
      exact ⟨by simp, rfl⟩
  | cons e es =>
      simp only [flattenArgs, yields_bind, yields_pure,
        Prod.mk.injEq] at hFlat
      rcases hFlat with
        ⟨g, c₁, hHead, ⟨bindings', results'⟩, c₂, hTail,
          ⟨rfl, rfl⟩, rfl⟩
      rcases operand_inSteps hHead fun h =>
          e.flatten_inSteps h with
        ⟨hFirst, hOperand⟩
      rcases flattenArgs_inSteps es hTail with
        ⟨hRest, hOperands⟩
      refine ⟨?_, ?_⟩
      · intro b hb
        exact (List.mem_append.mp hb).elim (hFirst b) (hRest b)
      · simp [hOperand, hOperands]

end

------------------------------------------------------------
-- Flattening Again
------------------------------------------------------------

/- An immediate operand stays, without a new name. -/
theorem operand_of_immediate
    {e : Exp}
    (hImmediate : e.isImmediate = true)
    (d : Nat) :
    Yields (Flat.operand e e.flatten) d
      { bindings := [], result := e } d := by
  unfold Flat.operand
  rw [if_pos hImmediate]
  exact yields_pure.mpr ⟨rfl, rfl⟩

theorem flattenArgs_of_immediate
    {es : List Exp}
    (hImmediate : es.all Exp.isImmediate = true)
    (d : Nat) :
    Yields (flattenArgs es) d ([], es) d := by
  induction es with
  | nil => exact yields_pure.mpr ⟨rfl, rfl⟩
  | cons e es ih =>
      simp only [List.all_cons, Bool.and_eq_true] at hImmediate
      exact yields_bind.mpr
        ⟨_, d, operand_of_immediate hImmediate.1 d,
          yields_bind.mpr ⟨_, d, ih hImmediate.2,
            yields_pure.mpr ⟨rfl, rfl⟩⟩⟩

/- There is nothing to flatten in one computation. -/
theorem Exp.IsStep.flatten
    {e : Exp}
    (hStep : e.IsStep)
    (d : Nat) :
    Yields e.flatten d { bindings := [], result := e } d := by
  have hCompound := hStep.compound
  cases e with
  | letIn name bound body ty => cases hCompound
  | apply function args ty =>
      simp only [Exp.isCompound, Bool.and_eq_true] at hCompound
      exact yields_bind.mpr
        ⟨_, d, operand_of_immediate hCompound.1 d,
          yields_bind.mpr
            ⟨_, d, flattenArgs_of_immediate hCompound.2 d,
              yields_pure.mpr ⟨rfl, rfl⟩⟩⟩
  | eval strategy input ty =>
      simp only [Exp.isCompound, Bool.and_eq_true] at hCompound
      exact yields_bind.mpr
        ⟨_, d, operand_of_immediate hCompound.1 d,
          yields_bind.mpr
            ⟨_, d, operand_of_immediate hCompound.2 d,
              yields_pure.mpr ⟨rfl, rfl⟩⟩⟩
  | seq first second ty => cases hStep.seqFree
  | var name pointer ty => exact yields_pure.mpr ⟨rfl, rfl⟩
  | int value ty => exact yields_pure.mpr ⟨rfl, rfl⟩
  | str value ty => exact yields_pure.mpr ⟨rfl, rfl⟩
  | object ty => exact yields_pure.mpr ⟨rfl, rfl⟩

theorem Exp.isNormal_of_isCompound
    {e : Exp}
    (hCompound : e.isCompound = true) :
    e.isNormal = true := by
  cases e with
  | letIn name bound body ty => cases hCompound
  | apply function args ty => exact hCompound
  | eval strategy input ty => exact hCompound
  | seq first second ty => exact hCompound
  | var name pointer ty => exact hCompound
  | int value ty => exact hCompound
  | str value ty => exact hCompound
  | object ty => exact hCompound

/- Computations in a row are a normal form when nested. -/
theorem Flat.isNormal_nest
    {f : Flat}
    (hSteps : f.InSteps) :
    f.nest.isNormal = true := by
  rcases f with ⟨bindings, result⟩
  induction bindings with
  | nil => exact Exp.isNormal_of_isCompound hSteps.result.compound
  | cons b bs ih =>
      have hHead := hSteps.bindings b List.mem_cons_self
      change (b.bound.isCompound &&
        (Flat.mk bs result).nest.isNormal) = true
      rw [hHead.compound, ih hSteps.tail]
      rfl

/- Flattening finds the nested computations again. -/
theorem Flat.flatten_nest
    {f : Flat}
    (hSteps : f.InSteps)
    (d : Nat) :
    Yields f.nest.flatten d f d := by
  rcases f with ⟨bindings, result⟩
  induction bindings with
  | nil => exact hSteps.result.flatten d
  | cons b bs ih =>
      have hHead := hSteps.bindings b List.mem_cons_self
      exact yields_bind.mpr ⟨_, d, hHead.flatten d,
        yields_bind.mpr ⟨_, d, ih hSteps.tail,
          yields_pure.mpr ⟨rfl, rfl⟩⟩⟩

/-
  Normalizing fails on expressions with a sequence somewhere
  in them, and on no others.  What it gives is in normal form,
  and normalizing that again changes nothing and hands out no
  name, however many names were handed out before.
-/
theorem Exp.normalize_projects
    (e : Exp)
    (c : Nat) :
    (Fails e.normalize c (.unsupported .normalizedSequence) ↔
      e.isSeqFree = false) ∧
    (e.isSeqFree = true →
      ∃ r c', Yields e.normalize c r c' ∧ r.isNormal = true ∧
        ∀ d, Yields r.normalize d r d) := by
  have hMade : e.isSeqFree = true →
      ∃ r c', Yields e.normalize c r c' ∧ r.isNormal = true ∧
        ∀ d, Yields r.normalize d r d := by
    intro hSeqFree
    rcases e.exists_flatten c hSeqFree with ⟨f, c', hFlat⟩
    have hSteps := e.flatten_inSteps hFlat
    refine ⟨f.nest, c', ?_, f.isNormal_nest hSteps, ?_⟩
    · exact yields_bind.mpr ⟨f, c', hFlat,
        yields_pure.mpr ⟨rfl, rfl⟩⟩
    · intro d
      exact yields_bind.mpr ⟨f, d, f.flatten_nest hSteps d,
        yields_pure.mpr ⟨rfl, rfl⟩⟩
  refine ⟨⟨?_, ?_⟩, hMade⟩
  · intro hFails
    rw [← Bool.not_eq_true]
    intro hSeqFree
    rcases hMade hSeqFree with ⟨r, c', hYields, -, -⟩
    exact hFails.not_yields r hYields
  · intro hSeq
    exact (e.flatten_fails c hSeq).bind_first

end Stratagem

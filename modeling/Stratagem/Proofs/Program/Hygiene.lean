import Stratagem.Proofs.Program.NormalMeaning

/-
  Which names a normal form uses.

  Flattening moves bindings to where more of the expression
  can see them, and it never moves a use in front of its
  binding.  So nothing that was bound becomes free, and what
  was free stays free unless its name is also bound somewhere
  or handed out on the way; such a name may be captured.

  Key definitions include:
    * `freeBehind`
    * `NamesKept`

  Main declarations:
    * `Exp.flatten_names`
    * `Exp.normalize_freeVars`
    * `normalize_captures`
-/

namespace Stratagem

------------------------------------------------------------
-- Names Behind Bindings
------------------------------------------------------------

/-
  The names that bindings in a row and what follows them use
  freely, given what follows uses.
-/
def freeBehind
    (bindings : List Binding)
    (inner : List String) : List String :=
  bindings.foldr
    (fun b names => b.bound.freeVars ++ names.filter (· != b.name))
    inner

theorem freeBehind_append
    (first second : List Binding)
    (inner : List String) :
    freeBehind (first ++ second) inner =
      freeBehind first (freeBehind second inner) :=
  List.foldr_append

theorem mem_freeBehind_cons
    {b : Binding}
    {bindings : List Binding}
    {inner : List String}
    {x : String} :
    x ∈ freeBehind (b :: bindings) inner ↔
      x ∈ b.bound.freeVars ∨
        x ∈ freeBehind bindings inner ∧ x ≠ b.name := by
  simp [freeBehind]

/- More uses inside are more uses outside. -/
theorem freeBehind_mono
    {bindings : List Binding}
    {inner inner' : List String}
    (hSubset : inner ⊆ inner') :
    freeBehind bindings inner ⊆ freeBehind bindings inner' := by
  induction bindings with
  | nil => exact hSubset
  | cons b bindings ih =>
      intro x hx
      rw [mem_freeBehind_cons] at hx ⊢
      rcases hx with hHere | ⟨hLater, hNe⟩
      · exact Or.inl hHere
      · exact Or.inr ⟨ih hLater, hNe⟩

/- A name that no binding has is seen through them. -/
theorem mem_freeBehind_of_unbound
    {bindings : List Binding}
    {inner : List String}
    {x : String}
    (hUnbound : ∀ b ∈ bindings, x ≠ b.name)
    (hx : x ∈ inner) :
    x ∈ freeBehind bindings inner := by
  induction bindings with
  | nil => exact hx
  | cons b bindings ih =>
      have hTail := ih fun d hd =>
        hUnbound d (List.mem_cons_of_mem b hd)
      exact mem_freeBehind_cons.mpr
        (Or.inr ⟨hTail, hUnbound b List.mem_cons_self⟩)

theorem Flat.freeVars_nest
    (f : Flat) :
    f.nest.freeVars = freeBehind f.bindings f.result.freeVars := by
  rcases f with ⟨bindings, result⟩
  induction bindings with
  | nil => rfl
  | cons b bindings ih =>
      unfold Flat.nest at ih ⊢
      rw [List.foldr_cons, Exp.letOf, Exp.freeVars, ih]
      rfl

------------------------------------------------------------
-- Flattening
------------------------------------------------------------

/- A name is one of those handed out between two numbers. -/
def HandedOut
    (c c' : Nat)
    (x : String) : Prop :=
  ∃ k, c ≤ k ∧ k < c' ∧ x = freshName k

theorem HandedOut.mono
    {c c' d d' : Nat}
    {x : String}
    (hOut : HandedOut c c' x)
    (hBefore : d ≤ c)
    (hAfter : c' ≤ d') :
    HandedOut d d' x := by
  rcases hOut with ⟨k, hk, hk', rfl⟩
  exact ⟨k, by omega, by omega, rfl⟩

/-
  What bindings do to the names of expressions that they were
  made from.  `outs` are the names that the results use.
-/
structure NamesKept
    (free binders : List String)
    (c c' : Nat)
    (bindings : List Binding)
    (outs : List String) : Prop where
  later : c ≤ c'
  bound : ∀ b ∈ bindings, b.name ∈ binders ∨ HandedOut c c' b.name
  escapes : ∀ inner x, x ∈ freeBehind bindings (outs ++ inner) →
    x ∈ free ∨ x ∈ inner
  keeps : ∀ x ∈ free, x ∉ binders → ¬ HandedOut c c' x →
    x ∈ outs ∨ ∀ inner, x ∈ freeBehind bindings inner

namespace NamesKept

variable {free free' binders binders' outs outs' : List String}
variable {bindings bindings' : List Binding}
variable {c c₁ c₂ : Nat}

/- A name that was not bound and not handed out is seen. -/
theorem unbound
    (hKept : NamesKept free binders c c₁ bindings outs)
    {x : String}
    (hBinders : x ∉ binders)
    (hFresh : ¬ HandedOut c c₁ x) :
    ∀ b ∈ bindings, x ≠ b.name := by
  intro b hb hSame
  subst hSame
  rcases hKept.bound b hb with hBinds | hOut
  · exact hBinders hBinds
  · exact hFresh hOut

/- An expression that stays as it is. -/
theorem stay
    (free binders : List String)
    (c : Nat) :
    NamesKept free binders c c [] free where
  later := Nat.le_refl c
  bound := by
    intro b hb
    cases hb
  escapes := by
    intro inner x hx
    exact List.mem_append.mp hx
  keeps := by
    intro x hx _ _
    exact Or.inl hx

/-
  Operands behind operands.  What comes behind the first
  bindings is all that they can capture.
-/
theorem append
    (hFirst : NamesKept free binders c c₁ bindings outs)
    (hSecond : NamesKept free' binders' c₁ c₂ bindings' outs') :
    NamesKept (free ++ free') (binders ++ binders') c c₂
      (bindings ++ bindings') (outs ++ outs') where
  later := Nat.le_trans hFirst.later hSecond.later
  bound := by
    intro b hb
    rcases List.mem_append.mp hb with hb | hb
    · rcases hFirst.bound b hb with hBinds | hOut
      · exact Or.inl (List.mem_append_left _ hBinds)
      · exact Or.inr (hOut.mono (Nat.le_refl c) hSecond.later)
    · rcases hSecond.bound b hb with hBinds | hOut
      · exact Or.inl (List.mem_append_right _ hBinds)
      · exact Or.inr (hOut.mono hFirst.later (Nat.le_refl c₂))
  escapes := by
    intro inner x hx
    rw [freeBehind_append] at hx
    have hSeen : freeBehind bindings'
        (outs ++ outs' ++ inner) ⊆ outs ++ (free' ++ inner) := by
      intro y hy
      have hMoved : y ∈ freeBehind bindings'
          (outs' ++ (outs ++ inner)) := by
        refine freeBehind_mono ?_ hy
        intro z hz
        simp only [List.mem_append] at hz ⊢
        grind
      rcases hSecond.escapes _ y hMoved with hFree | hRest
      · simp [hFree]
      · rcases List.mem_append.mp hRest with hOuts | hInner
        · simp [hOuts]
        · simp [hInner]
    rcases hFirst.escapes _ x (freeBehind_mono hSeen hx) with
      hFree | hRest
    · exact Or.inl (List.mem_append_left _ hFree)
    · rcases List.mem_append.mp hRest with hFree | hInner
      · exact Or.inl (List.mem_append_right _ hFree)
      · exact Or.inr hInner
  keeps := by
    intro x hx hBinders hFresh
    simp only [List.mem_append, not_or] at hBinders
    have hEarly : ¬ HandedOut c c₁ x := fun hOut =>
      hFresh (hOut.mono (Nat.le_refl c) hSecond.later)
    have hLate : ¬ HandedOut c₁ c₂ x := fun hOut =>
      hFresh (hOut.mono hFirst.later (Nat.le_refl c₂))
    rcases List.mem_append.mp hx with hx | hx
    · rcases hFirst.keeps x hx hBinders.1 hEarly with hOuts | hAll
      · exact Or.inl (List.mem_append_left _ hOuts)
      · refine Or.inr fun inner => ?_
        rw [freeBehind_append]
        exact hAll _
    · rcases hSecond.keeps x hx hBinders.2 hLate with hOuts | hAll
      · exact Or.inl (List.mem_append_right _ hOuts)
      · refine Or.inr fun inner => ?_
        rw [freeBehind_append]
        exact mem_freeBehind_of_unbound
          (hFirst.unbound hBinders.1 hEarly) (hAll inner)

/- A binding between what it binds and what it is for. -/
theorem letIn
    {name : String}
    {result : Exp}
    (hBound : NamesKept free binders c c₁ bindings
      result.freeVars)
    (hBody : NamesKept free' binders' c₁ c₂ bindings' outs') :
    NamesKept (free ++ free'.filter (· != name))
      (binders ++ name :: binders') c c₂
      (bindings ++ { name, bound := result } :: bindings')
      outs' where
  later := Nat.le_trans hBound.later hBody.later
  bound := by
    intro b hb
    rcases List.mem_append.mp hb with hb | hb
    · rcases hBound.bound b hb with hBinds | hOut
      · exact Or.inl (List.mem_append_left _ hBinds)
      · exact Or.inr (hOut.mono (Nat.le_refl c) hBody.later)
    · rcases List.mem_cons.mp hb with rfl | hb
      · exact Or.inl (List.mem_append_right _ List.mem_cons_self)
      · rcases hBody.bound b hb with hBinds | hOut
        · refine Or.inl (List.mem_append_right _ ?_)
          exact List.mem_cons_of_mem _ hBinds
        · exact Or.inr (hOut.mono hBound.later (Nat.le_refl c₂))
  escapes := by
    intro inner x hx
    rw [freeBehind_append] at hx
    have hSeen : freeBehind
        ({ name, bound := result } :: bindings')
          (outs' ++ inner) ⊆
        result.freeVars ++ (free'.filter (· != name) ++ inner) := by
      intro y hy
      rcases mem_freeBehind_cons.mp hy with hHere | ⟨hLater, hNe⟩
      · simp [hHere]
      · rcases hBody.escapes inner y hLater with hFree | hInner
        · have hOther : y ≠ name := hNe
          simp [hFree, hOther]
        · simp [hInner]
    rcases hBound.escapes _ x (freeBehind_mono hSeen hx) with
      hFree | hRest
    · exact Or.inl (List.mem_append_left _ hFree)
    · rcases List.mem_append.mp hRest with hFree | hInner
      · exact Or.inl (List.mem_append_right _ hFree)
      · exact Or.inr hInner
  keeps := by
    intro x hx hBinders hFresh
    simp only [List.mem_append, List.mem_cons, not_or] at hBinders
    have hEarly : ¬ HandedOut c c₁ x := fun hOut =>
      hFresh (hOut.mono (Nat.le_refl c) hBody.later)
    have hLate : ¬ HandedOut c₁ c₂ x := fun hOut =>
      hFresh (hOut.mono hBound.later (Nat.le_refl c₂))
    have hUnbound := hBound.unbound hBinders.1 hEarly
    rcases List.mem_append.mp hx with hx | hx
    · refine Or.inr fun inner => ?_
      rw [freeBehind_append]
      rcases hBound.keeps x hx hBinders.1 hEarly with hOuts | hAll
      · refine mem_freeBehind_of_unbound hUnbound ?_
        exact mem_freeBehind_cons.mpr (Or.inl hOuts)
      · exact hAll _
    · have hFree : x ∈ free' := (List.mem_filter.mp hx).1
      rcases hBody.keeps x hFree hBinders.2.2 hLate with
        hOuts | hAll
      · exact Or.inl hOuts
      · refine Or.inr fun inner => ?_
        rw [freeBehind_append]
        refine mem_freeBehind_of_unbound hUnbound ?_
        exact mem_freeBehind_cons.mpr
          (Or.inr ⟨hAll inner, hBinders.2.1⟩)

/- A computation that gets a name is used by that name only. -/
theorem named
    {result : Exp}
    (hKept : NamesKept free binders c c₁ bindings
      result.freeVars) :
    NamesKept free binders c (c₁ + 1)
      (bindings ++ [{ name := freshName c₁, bound := result }])
      [freshName c₁] where
  later := Nat.le_succ_of_le hKept.later
  bound := by
    intro b hb
    rcases List.mem_append.mp hb with hb | hb
    · rcases hKept.bound b hb with hBinds | hOut
      · exact Or.inl hBinds
      · exact Or.inr (hOut.mono (Nat.le_refl c) (Nat.le_succ c₁))
    · rw [List.mem_singleton.mp hb]
      exact Or.inr ⟨c₁, hKept.later, Nat.lt_succ_self c₁, rfl⟩
  escapes := by
    intro inner x hx
    rw [freeBehind_append] at hx
    have hSeen : freeBehind
        [{ name := freshName c₁, bound := result }]
          ([freshName c₁] ++ inner) ⊆
        result.freeVars ++ inner := by
      intro y hy
      rcases mem_freeBehind_cons.mp hy with hHere | ⟨hLater, hNe⟩
      · simp [hHere]
      · rcases List.mem_append.mp hLater with hName | hInner
        · exact absurd (List.mem_singleton.mp hName) hNe
        · simp [hInner]
    exact hKept.escapes inner x (freeBehind_mono hSeen hx)
  keeps := by
    intro x hx hBinders hFresh
    have hEarly : ¬ HandedOut c c₁ x := fun hOut =>
      hFresh (hOut.mono (Nat.le_refl c) (Nat.le_succ c₁))
    refine Or.inr fun inner => ?_
    rw [freeBehind_append]
    rcases hKept.keeps x hx hBinders hEarly with hOuts | hAll
    · refine mem_freeBehind_of_unbound
        (hKept.unbound hBinders hEarly) ?_
      exact mem_freeBehind_cons.mpr (Or.inl hOuts)
    · exact hAll _

end NamesKept

/- An operand stays, or it gets a name. -/
theorem operand_names
    {e : Exp}
    {c c' : Nat}
    {f : Flat}
    (hFlat : Yields (Flat.operand e e.flatten) c f c')
    (hNames : ∀ {c' f}, Yields e.flatten c f c' →
      NamesKept e.freeVars e.binders c c' f.bindings
        f.result.freeVars) :
    NamesKept e.freeVars e.binders c c' f.bindings
      f.result.freeVars := by
  unfold Flat.operand at hFlat
  by_cases hImmediate : e.isImmediate = true
  · rw [if_pos hImmediate, yields_pure] at hFlat
    rcases hFlat with ⟨rfl, rfl⟩
    exact NamesKept.stay _ _ _
  · rw [if_neg hImmediate] at hFlat
    simp only [yields_bind, yields_pure] at hFlat
    rcases hFlat with
      ⟨g, c₁, hFlat, name, c₂, hFresh, rfl, rfl⟩
    rcases Yields.unique hFresh (yields_fresh c₁) with ⟨rfl, rfl⟩
    exact (hNames hFlat).named

mutual

/- Flattening keeps names as far as they can be told apart. -/
theorem Exp.flatten_names
    (e : Exp)
    {c c' : Nat}
    {f : Flat}
    (hFlat : Yields e.flatten c f c') :
    NamesKept e.freeVars e.binders c c' f.bindings
      f.result.freeVars := by
  cases e with
  | letIn name bound body ty =>
      simp only [Exp.flatten, yields_bind, yields_pure] at hFlat
      rcases hFlat with
        ⟨g, c₁, hBound, rest, c₂, hBody, rfl, rfl⟩
      exact (bound.flatten_names hBound).letIn
        (body.flatten_names hBody)
  | apply function args ty =>
      simp only [Exp.flatten, yields_bind, yields_pure] at hFlat
      rcases hFlat with
        ⟨g, c₁, hFunction, ⟨bindings, results⟩, c₂, hArgs, rfl,
          rfl⟩
      have hFunctionNames := operand_names hFunction fun h =>
        function.flatten_names h
      exact hFunctionNames.append (flattenArgs_names args hArgs)
  | eval strategy input ty =>
      simp only [Exp.flatten, yields_bind, yields_pure] at hFlat
      rcases hFlat with
        ⟨g, c₁, hStrategy, i, c₂, hInput, rfl, rfl⟩
      have hStrategyNames := operand_names hStrategy fun h =>
        strategy.flatten_names h
      have hInputNames := operand_names hInput fun h =>
        input.flatten_names h
      exact hStrategyNames.append hInputNames
  | seq first second ty => simp [Exp.flatten] at hFlat
  | var name pointer ty =>
      simp only [Exp.flatten, yields_pure] at hFlat
      rcases hFlat with ⟨rfl, rfl⟩
      exact NamesKept.stay _ _ _
  | int value ty =>
      simp only [Exp.flatten, yields_pure] at hFlat
      rcases hFlat with ⟨rfl, rfl⟩
      exact NamesKept.stay _ _ _
  | str value ty =>
      simp only [Exp.flatten, yields_pure] at hFlat
      rcases hFlat with ⟨rfl, rfl⟩
      exact NamesKept.stay _ _ _
  | object ty =>
      simp only [Exp.flatten, yields_pure] at hFlat
      rcases hFlat with ⟨rfl, rfl⟩
      exact NamesKept.stay _ _ _

theorem flattenArgs_names
    (es : List Exp)
    {c c' : Nat}
    {bindings : List Binding}
    {results : List Exp}
    (hFlat : Yields (flattenArgs es) c (bindings, results) c') :
    NamesKept (freeVarsOf es) (bindersOf es) c c' bindings
      (freeVarsOf results) := by
  cases es with
  | nil =>
      simp only [flattenArgs, yields_pure, Prod.mk.injEq] at hFlat
      rcases hFlat with ⟨⟨rfl, rfl⟩, rfl⟩
      exact NamesKept.stay _ _ _
  | cons e es =>
      simp only [flattenArgs, yields_bind, yields_pure,
        Prod.mk.injEq] at hFlat
      rcases hFlat with
        ⟨g, c₁, hHead, ⟨bindings', results'⟩, c₂, hTail,
          ⟨rfl, rfl⟩, rfl⟩
      have hHeadNames := operand_names hHead fun h =>
        e.flatten_names h
      exact hHeadNames.append (flattenArgs_names es hTail)

end

------------------------------------------------------------
-- Normal Forms
------------------------------------------------------------

/-
  An expression without sequences has a normal form that uses
  nothing freely but what the expression does.  And it uses
  all of it, except for names that the expression also binds
  or that are handed out for its computations.
-/
theorem Exp.normalize_freeVars
    (e : Exp)
    (c : Nat)
    (hSeqFree : e.isSeqFree = true) :
    ∃ r c', Yields e.normalize c r c' ∧
      (∀ x ∈ r.freeVars, x ∈ e.freeVars) ∧
      ∀ x ∈ e.freeVars, x ∉ e.binders →
        (∀ k, c ≤ k → k < c' → x ≠ freshName k) →
        x ∈ r.freeVars := by
  rcases e.exists_flatten c hSeqFree with ⟨f, c', hFlat⟩
  have hNames := e.flatten_names hFlat
  refine ⟨f.nest, c', ?_, ?_, ?_⟩
  · exact yields_bind.mpr ⟨f, c', hFlat,
      yields_pure.mpr ⟨rfl, rfl⟩⟩
  · intro x hx
    rw [f.freeVars_nest, ← List.append_nil f.result.freeVars]
      at hx
    rcases hNames.escapes [] x hx with hFree | hNone
    · exact hFree
    · cases hNone
  · intro x hx hBinders hFresh
    have hOther : ¬ HandedOut c c' x := by
      rintro ⟨k, hk, hk', hSame⟩
      exact hFresh k hk hk' hSame
    rw [f.freeVars_nest]
    rcases hNames.keeps x hx hBinders hOther with hOuts | hAll
    · exact mem_freeBehind_of_unbound
        (hNames.unbound hBinders hOther) hOuts
    · exact hAll _

/-
  A binding in one operand of a name that another operand
  uses: `eval(let x = s; x, x)`.
-/
def rebindingOperand : Exp :=
  let any := ValueType.base .any
  .eval
    (.letIn "x" (.var "s" none any) (.var "x" none any) any)
    (.var "x" none any) any

/- A name like those handed out: `eval(eval(s, t), var_0)`. -/
def numberedOperand : Exp :=
  let any := ValueType.base .any
  .eval
    (.eval (.var "s" none any) (.var "t" none any) any)
    (.var "var_0" none any) any

/- The name that is bound nowhere is safe. -/
theorem rebindingOperand_freeVars :
    rebindingOperand.isSeqFree = true ∧
      ∃ r c', Yields rebindingOperand.normalize 0 r c' ∧
        (∀ x ∈ r.freeVars, x ∈ rebindingOperand.freeVars) ∧
        "s" ∈ r.freeVars := by
  rcases Exp.normalize_freeVars rebindingOperand 0 (by decide) with
    ⟨r, c', hNormal, hOld, hKept⟩
  refine ⟨by decide, r, c', hNormal, hOld,
    hKept "s" (by decide) (by decide) ?_⟩
  intro k _ _ hSame
  have hLong : (freshName k).length = 4 + k.repr.length := by
    simp [freshName, toString]
    rfl
  rw [← hSame] at hLong
  have hOne : "s".length = 1 := rfl
  omega

/-
  Both kinds of capture happen: a free name of an operand is
  bound in the normal form.
-/
theorem normalize_captures :
    (rebindingOperand.isSeqFree = true ∧
      "x" ∈ rebindingOperand.freeVars ∧
      ∃ r, Yields rebindingOperand.normalize 0 r 1 ∧
        "x" ∉ r.freeVars) ∧
    numberedOperand.isSeqFree = true ∧
      "var_0" ∈ numberedOperand.freeVars ∧
      ∃ r, Yields numberedOperand.normalize 0 r 1 ∧
        "var_0" ∉ r.freeVars := by
  refine ⟨⟨by decide, by decide, _, rfl, by decide⟩,
    by decide, by decide, _, rfl, by decide⟩

end Stratagem

import Mathlib.Data.List.Forall2

/-
  Steps that can fail, on a state.

  A failure of some steps keeps the state, and a failure of
  others loses it.

  Key definitions include:
    * `Yields`
    * `Fails`
    * `Keeps`
    * `FailsWith`
    * `Gives`

  Main declarations:
    * `yields_bind`
    * `Keeps.bind`
    * `FailsWith.bind`
    * `gives_bind`
    * `mapM_eq_ok`
-/

namespace Stratagem

section Steps

variable {ε σ α β : Type}

/- A step as a function from states to outcomes. -/
def outcomeOf
    (x : ExceptT ε (StateM σ) α)
    (s : σ) : Except ε α × σ :=
  x s

/- A step from a state succeeds with a result in a new state. -/
def Yields
    (x : ExceptT ε (StateM σ) α)
    (s : σ)
    (a : α)
    (s' : σ) : Prop :=
  outcomeOf x s = (.ok a, s')

/- The second of two steps in a row runs if the first succeeds. -/
theorem outcomeOf_bind
    (x : ExceptT ε (StateM σ) α)
    (f : α → ExceptT ε (StateM σ) β)
    (s : σ) :
    outcomeOf (x >>= f) s =
      match outcomeOf x s with
      | (.ok a, s₁) => outcomeOf (f a) s₁
      | (.error e, s₁) => (.error e, s₁) := by
  simp only [outcomeOf, bind, ExceptT.bind, ExceptT.mk,
    StateT.bind]
  rcases x s with ⟨result, s₁⟩
  cases result with
  | error e => rfl
  | ok a => rfl

------------------------------------------------------------
-- Success
------------------------------------------------------------

/-
  Two steps in a row succeed exactly when the first one does
  and the second one does from where the first has ended.
-/
@[simp] theorem yields_bind
    {x : ExceptT ε (StateM σ) α}
    {f : α → ExceptT ε (StateM σ) β}
    {s s' : σ}
    {b : β} :
    Yields (x >>= f) s b s' ↔
      ∃ a s₁, Yields x s a s₁ ∧ Yields (f a) s₁ b s' := by
  unfold Yields
  rw [outcomeOf_bind]
  rcases outcomeOf x s with ⟨result, s₁⟩
  cases result with
  | error e => simp
  | ok a =>
      simp only [Prod.mk.injEq, Except.ok.injEq]
      constructor
      · intro hNext
        exact ⟨a, s₁, ⟨rfl, rfl⟩, hNext⟩
      · rintro ⟨_, _, ⟨rfl, rfl⟩, hNext⟩
        exact hNext

@[simp] theorem yields_pure
    {s s' : σ}
    {a b : α} :
    Yields (pure a : ExceptT ε (StateM σ) α) s b s' ↔
      b = a ∧ s' = s := by
  change (Except.ok a, s) = (Except.ok b, s') ↔ _
  simp [eq_comm]

@[simp] theorem yields_throw
    {e : ε}
    {s s' : σ}
    {a : α} :
    ¬ Yields (throw e : ExceptT ε (StateM σ) α) s a s' := by
  change ¬ (Except.error e, s) = (Except.ok a, s')
  simp

@[simp] theorem yields_get
    {s s' t : σ} :
    Yields (get : ExceptT ε (StateM σ) σ) s t s' ↔
      t = s ∧ s' = s := by
  change (Except.ok s, s) = (Except.ok t, s') ↔ _
  simp [eq_comm]

@[simp] theorem yields_set
    {s s' t : σ}
    {u : PUnit} :
    Yields (set t : ExceptT ε (StateM σ) PUnit) s u s' ↔
      s' = t := by
  change (Except.ok ⟨⟩, t) = (Except.ok u, s') ↔ _
  simp [eq_comm]

@[simp] theorem yields_modify
    {f : σ → σ}
    {s s' : σ}
    {u : PUnit} :
    Yields (modify f : ExceptT ε (StateM σ) PUnit) s u s' ↔
      s' = f s := by
  change (Except.ok ⟨⟩, f s) = (Except.ok u, s') ↔ _
  simp [eq_comm]

@[simp] theorem yields_modifyGet
    {f : σ → α × σ}
    {s s' : σ}
    {a : α} :
    Yields (modifyGet f : ExceptT ε (StateM σ) α) s a s' ↔
      f s = (a, s') := by
  change (Except.ok (f s).1, (f s).2) = (Except.ok a, s') ↔ _
  simp [Prod.ext_iff]

@[simp] theorem yields_discard
    {x : ExceptT ε (StateM σ) α}
    {s s' : σ}
    {u : PUnit} :
    Yields (discard x) s u s' ↔ ∃ a, Yields x s a s' := by
  change Yields (x >>= fun _ => pure ⟨⟩) s u s' ↔ _
  simp only [yields_bind, yields_pure]
  constructor
  · rintro ⟨a, s₁, hStep, _, rfl⟩
    exact ⟨a, hStep⟩
  · rintro ⟨a, hStep⟩
    exact ⟨a, s', hStep, trivial, rfl⟩

@[simp] theorem yields_map
    {x : ExceptT ε (StateM σ) α}
    {f : α → β}
    {s s' : σ}
    {b : β} :
    Yields (f <$> x) s b s' ↔ ∃ a, Yields x s a s' ∧ b = f a := by
  rw [map_eq_pure_bind]
  simp only [yields_bind, yields_pure]
  constructor
  · rintro ⟨a, s₁, hStep, hResult, rfl⟩
    exact ⟨a, hStep, hResult⟩
  · rintro ⟨a, hStep, hResult⟩
    exact ⟨a, s', hStep, hResult, rfl⟩

/- A step that ends well yields something. -/
theorem exists_yields_of_isOk
    {x : ExceptT ε (StateM σ) α}
    {s : σ}
    (hOk : (outcomeOf x s).1.isOk = true) :
    ∃ a s', Yields x s a s' := by
  rcases hRun : outcomeOf x s with ⟨result, s'⟩
  rw [hRun] at hOk
  cases result with
  | error e => cases hOk
  | ok a => exact ⟨a, s', hRun⟩

/- A step from a state has one outcome. -/
theorem Yields.unique
    {x : ExceptT ε (StateM σ) α}
    {s s₁ s₂ : σ}
    {a b : α}
    (hFirst : Yields x s a s₁)
    (hSecond : Yields x s b s₂) :
    a = b ∧ s₁ = s₂ := by
  have hSame := hFirst.symm.trans hSecond
  simpa using hSame

------------------------------------------------------------
-- Failure
------------------------------------------------------------

/- A step from a state fails, wherever that leaves the state. -/
def Fails
    (x : ExceptT ε (StateM σ) α)
    (s : σ)
    (e : ε) : Prop :=
  (outcomeOf x s).1 = .error e

namespace Fails

variable {x : ExceptT ε (StateM σ) α}
variable {f : α → ExceptT ε (StateM σ) β}
variable {s s₁ : σ}
variable {e : ε}

/- The first of two steps in a row fails. -/
theorem bind_first
    (hFirst : Fails x s e) :
    Fails (x >>= f) s e := by
  rcases hRun : outcomeOf x s with ⟨result, s₁⟩
  unfold Fails at hFirst ⊢
  rw [hRun] at hFirst
  rw [outcomeOf_bind, hRun]
  cases hFirst
  rfl

/- The second of two steps in a row fails. -/
theorem bind_next
    {a : α}
    (hFirst : Yields x s a s₁)
    (hNext : Fails (f a) s₁ e) :
    Fails (x >>= f) s e := by
  unfold Fails at hNext ⊢
  rw [outcomeOf_bind, hFirst]
  exact hNext

/- A step that fails yields nothing. -/
theorem not_yields
    (hFails : Fails x s e)
    (a : α) :
    ¬ Yields x s a s₁ := by
  intro hYields
  unfold Fails at hFails
  rw [hYields] at hFails
  cases hFails

end Fails

------------------------------------------------------------
-- Every Outcome
------------------------------------------------------------

/- However a step ends, its states are in a relation. -/
def Keeps
    (R : σ → σ → Prop)
    (x : ExceptT ε (StateM σ) α) : Prop :=
  ∀ s, R s (outcomeOf x s).2

namespace Keeps

variable {R : σ → σ → Prop}

theorem pure
    (hRefl : ∀ s, R s s)
    (a : α) :
    Keeps R (Pure.pure a : ExceptT ε (StateM σ) α) :=
  fun s => hRefl s

theorem throw
    (hRefl : ∀ s, R s s)
    (e : ε) :
    Keeps R (throw e : ExceptT ε (StateM σ) α) :=
  fun s => hRefl s

theorem get
    (hRefl : ∀ s, R s s) :
    Keeps R (get : ExceptT ε (StateM σ) σ) :=
  fun s => hRefl s

theorem modify
    {f : σ → σ}
    (hStep : ∀ s, R s (f s)) :
    Keeps R (modify f : ExceptT ε (StateM σ) PUnit) :=
  fun s => hStep s

/- A relation that steps in a row keep is kept by both. -/
theorem bind
    {x : ExceptT ε (StateM σ) α}
    {f : α → ExceptT ε (StateM σ) β}
    (hTrans : ∀ {s₁ s₂ s₃}, R s₁ s₂ → R s₂ s₃ → R s₁ s₃)
    (hFirst : Keeps R x)
    (hNext : ∀ a, Keeps R (f a)) :
    Keeps R (x >>= f) := by
  intro s
  have hStart := hFirst s
  rw [outcomeOf_bind]
  rcases hRun : outcomeOf x s with ⟨result, s₁⟩
  rw [hRun] at hStart
  cases result with
  | error e => exact hStart
  | ok a => exact hTrans hStart (hNext a s₁)

/- In particular a step that succeeds keeps to the relation. -/
theorem of_yields
    {x : ExceptT ε (StateM σ) α}
    {s s' : σ}
    {a : α}
    (hKeeps : Keeps R x)
    (hYields : Yields x s a s') :
    R s s' := by
  have hEnd := hKeeps s
  rwa [hYields] at hEnd

end Keeps

------------------------------------------------------------
-- Every Failure
------------------------------------------------------------

/- Whatever a step fails with has a property. -/
def FailsWith
    (P : ε → Prop)
    (x : ExceptT ε (StateM σ) α) : Prop :=
  ∀ s e, Fails x s e → P e

namespace FailsWith

variable {P : ε → Prop}

theorem pure
    (a : α) :
    FailsWith P (Pure.pure a : ExceptT ε (StateM σ) α) :=
  fun _ _ hFails => nomatch hFails

theorem throw
    {e : ε}
    (hError : P e) :
    FailsWith P (throw e : ExceptT ε (StateM σ) α) := by
  intro s e' hFails
  cases hFails
  exact hError

theorem get :
    FailsWith P (get : ExceptT ε (StateM σ) σ) :=
  fun _ _ hFails => nomatch hFails

/- Two steps in a row fail as one of them does. -/
theorem bind
    {x : ExceptT ε (StateM σ) α}
    {f : α → ExceptT ε (StateM σ) β}
    (hFirst : FailsWith P x)
    (hNext : ∀ a, FailsWith P (f a)) :
    FailsWith P (x >>= f) := by
  intro s e hFails
  unfold Fails at hFails
  rw [outcomeOf_bind] at hFails
  rcases hRun : outcomeOf x s with ⟨result, s₁⟩
  rw [hRun] at hFails
  cases result with
  | error e' =>
      cases hFails
      refine hFirst s e ?_
      unfold Fails
      rw [hRun]
  | ok a => exact hNext a s₁ e hFails

theorem mapM
    {γ : Type}
    {f : γ → ExceptT ε (StateM σ) α}
    (xs : List γ)
    (hEach : ∀ x, FailsWith P (f x)) :
    FailsWith P (xs.mapM f) := by
  induction xs with
  | nil => exact pure []
  | cons x xs ih =>
      rw [List.mapM_cons]
      exact (hEach x).bind fun _ => ih.bind fun _ => pure _

end FailsWith

------------------------------------------------------------
-- Failures That Lose the State
------------------------------------------------------------

theorem ok_bind
    {x : Except ε α}
    {f : α → Except ε β}
    {b : β} :
    (x >>= f) = .ok b ↔ ∃ a, x = .ok a ∧ f a = .ok b := by
  cases x with
  | error e => simp [bind, Except.bind]
  | ok a => simp [bind, Except.bind]

theorem toOption_eq_some
    {x : Except ε α}
    {a : α} :
    x.toOption = some a ↔ x = .ok a := by
  cases x with
  | error e => simp [Except.toOption]
  | ok b => simp [Except.toOption]

/- A list of results that are all there. -/
theorem mapM_eq_ok
    {f : α → Except ε β}
    {xs : List α}
    {ys : List β} :
    xs.mapM f = .ok ys ↔
      List.Forall₂ (fun x y => f x = .ok y) xs ys := by
  induction xs generalizing ys with
  | nil =>
      rw [List.mapM_nil]
      constructor
      · rintro ⟨⟩
        exact .nil
      · rintro ⟨⟩
        rfl
  | cons x xs ih =>
      rw [List.mapM_cons]
      simp only [ok_bind, ih]
      constructor
      · rintro ⟨y, hFirst, zs, hRest, hEnd⟩
        cases hEnd
        exact .cons hFirst hRest
      · intro hAll
        cases hAll with
        | cons hFirst hRest => exact ⟨_, hFirst, _, hRest, rfl⟩

/- Each argument has its result there. -/
theorem exists_ok_of_mapM
    {f : α → Except ε β}
    {xs : List α}
    {ys : List β}
    {x : α}
    (hAll : xs.mapM f = .ok ys)
    (hIn : x ∈ xs) :
    ∃ y ∈ ys, f x = .ok y := by
  rw [mapM_eq_ok] at hAll
  induction hAll with
  | nil => cases hIn
  | cons hFirst _ ih =>
      rcases List.mem_cons.mp hIn with rfl | hLater
      · exact ⟨_, List.mem_cons_self, hFirst⟩
      · rcases ih hLater with ⟨y, hResult, hSame⟩
        exact ⟨y, List.mem_cons_of_mem _ hResult, hSame⟩

/- And each result is that of an argument. -/
theorem exists_arg_of_mapM
    {f : α → Except ε β}
    {xs : List α}
    {ys : List β}
    {y : β}
    (hAll : xs.mapM f = .ok ys)
    (hIn : y ∈ ys) :
    ∃ x ∈ xs, f x = .ok y := by
  rw [mapM_eq_ok] at hAll
  induction hAll with
  | nil => cases hIn
  | cons hFirst _ ih =>
      rcases List.mem_cons.mp hIn with rfl | hLater
      · exact ⟨_, List.mem_cons_self, hFirst⟩
      · rcases ih hLater with ⟨x, hArg, hSame⟩
        exact ⟨x, List.mem_cons_of_mem _ hArg, hSame⟩

/- The error of a list of results is that of one of them. -/
theorem exists_of_mapM_error
    {f : α → Except ε β}
    {xs : List α}
    {e : ε}
    (hError : xs.mapM f = .error e) :
    ∃ x ∈ xs, f x = .error e := by
  induction xs with
  | nil => cases hError
  | cons x xs ih =>
      rw [List.mapM_cons] at hError
      cases hFirst : f x with
      | error e' =>
          rw [hFirst] at hError
          cases hError
          exact ⟨x, List.mem_cons_self, hFirst⟩
      | ok y =>
          rw [hFirst] at hError
          cases hRest : xs.mapM f with
          | error e' =>
              have hSame : e' = e := by
                simpa [bind, Except.bind, hRest] using hError
              rcases ih (hSame ▸ hRest) with ⟨z, hIn, hLater⟩
              exact ⟨z, List.mem_cons_of_mem x hIn, hLater⟩
          | ok ys =>
              simp [bind, Except.bind, hRest, pure, Except.pure]
                at hError

/- A step succeeds with a result in a new state. -/
def Gives
    (x : StateT σ (Except ε) α)
    (s : σ)
    (a : α)
    (s' : σ) : Prop :=
  x s = .ok (a, s')

@[simp] theorem gives_bind
    {x : StateT σ (Except ε) α}
    {f : α → StateT σ (Except ε) β}
    {s s' : σ}
    {b : β} :
    Gives (x >>= f) s b s' ↔
      ∃ a s₁, Gives x s a s₁ ∧ Gives (f a) s₁ b s' := by
  unfold Gives
  change (x s >>= fun r => f r.1 r.2) = .ok (b, s') ↔ _
  rw [ok_bind]
  simp only [Prod.exists]

@[simp] theorem gives_pure
    {s s' : σ}
    {a b : α} :
    Gives (pure a : StateT σ (Except ε) α) s b s' ↔
      b = a ∧ s' = s := by
  change Except.ok (a, s) = .ok (b, s') ↔ _
  simp [eq_comm]

@[simp] theorem gives_throw
    {e : ε}
    {s s' : σ}
    {a : α} :
    ¬ Gives (throw e : StateT σ (Except ε) α) s a s' := by
  change ¬ Except.error e = .ok (a, s')
  simp

@[simp] theorem gives_get
    {s s' t : σ} :
    Gives (get : StateT σ (Except ε) σ) s t s' ↔
      t = s ∧ s' = s := by
  change Except.ok (s, s) = .ok (t, s') ↔ _
  simp [eq_comm]

@[simp] theorem gives_liftExcept
    {r : Except ε α}
    {s s' : σ}
    {a : α} :
    Gives (liftExcept r : StateT σ (Except ε) α) s a s' ↔
      r = .ok a ∧ s' = s := by
  cases r with
  | error e =>
      change Except.error e = .ok (a, s') ↔ _
      simp
  | ok b =>
      change Except.ok (b, s) = .ok (a, s') ↔ _
      simp [eq_comm]

end Steps

end Stratagem

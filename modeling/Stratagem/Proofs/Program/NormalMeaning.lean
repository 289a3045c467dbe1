import Std.Data.String.ToNat
import Stratagem.Proofs.Program.Meaning
import Stratagem.Proofs.Steps

/-
  Normal forms mean what the expressions mean.

  Flattening moves bindings out of operands, to where more
  operands can see them.  As long as no name is bound twice or
  both bound and free, and no name is one that is handed out
  later, none of these operands uses a name that it now sees.

  Key definitions include:
    * `Hygienic`
    * `SameBut`
    * `runBindings`

  Main declarations:
    * `Exp.flatten_meaning`
    * `Exp.normalize_meaning`
-/

namespace Stratagem

universe u v

------------------------------------------------------------
-- New Names
------------------------------------------------------------

/- The name that is handed out when so many were before. -/
def freshName
    (n : Nat) : String :=
  s!"var_{n}"

theorem freshName_injective
    {i j : Nat}
    (hSame : freshName i = freshName j) :
    i = j := by
  simpa [freshName, toString] using hSame

theorem yields_fresh
    (c : Nat) :
    Yields Normalizing.fresh c (freshName c) (c + 1) :=
  rfl

/-
  What an expression binds and uses freely keeps apart, and
  no name is handed out again from a number on.
-/
structure Hygienic
    (binders free : List String)
    (c : Nat) : Prop where
  distinct : binders.Nodup
  apart : ∀ x ∈ binders, x ∉ free
  unused : ∀ x ∈ free ++ binders, ∀ k, c ≤ k → x ≠ freshName k

namespace Hygienic

variable {binders₁ binders₂ free₁ free₂ : List String}
variable {c : Nat}

/- The first of two parts. -/
theorem left
    (h : Hygienic (binders₁ ++ binders₂) (free₁ ++ free₂) c) :
    Hygienic binders₁ free₁ c where
  distinct := (List.nodup_append.mp h.distinct).1
  apart x hBinds hFree :=
    h.apart x (by simp [hBinds]) (by simp [hFree])
  unused x hName := by
    apply h.unused x
    rcases List.mem_append.mp hName with hFree | hBinds
    · simp [hFree]
    · simp [hBinds]

/- The second of two parts, once more names are handed out. -/
theorem right
    (h : Hygienic (binders₁ ++ binders₂) (free₁ ++ free₂) c)
    {c' : Nat}
    (hLater : c ≤ c') :
    Hygienic binders₂ free₂ c' where
  distinct := (List.nodup_append.mp h.distinct).2.1
  apart x hBinds hFree :=
    h.apart x (by simp [hBinds]) (by simp [hFree])
  unused x hName k hk := by
    apply h.unused x
    · rcases List.mem_append.mp hName with hFree | hBinds
      · simp [hFree]
      · simp [hBinds]
    · omega

/- The part of a binding that is bound. -/
theorem bound
    {name : String}
    (h :
      Hygienic (binders₁ ++ name :: binders₂)
        (free₁ ++ free₂.filter (· != name)) c) :
    Hygienic binders₁ free₁ c :=
  h.left

/- The part of a binding that it is for. -/
theorem body
    {name : String}
    (h :
      Hygienic (binders₁ ++ name :: binders₂)
        (free₁ ++ free₂.filter (· != name)) c)
    {c' : Nat}
    (hLater : c ≤ c') :
    Hygienic binders₂ free₂ c' where
  distinct :=
    (List.nodup_cons.mp (List.nodup_append.mp h.distinct).2.1).2
  apart x hBinds hFree := by
    have hNodup :=
      List.nodup_cons.mp (List.nodup_append.mp h.distinct).2.1
    have hNe : x ≠ name := by
      rintro rfl
      exact hNodup.1 hBinds
    exact h.apart x (by simp [hBinds]) (by simp [hFree, hNe])
  unused x hName k hk := by
    by_cases hSame : x = name
    · exact h.unused x (by simp [hSame]) k (by omega)
    · apply h.unused x
      · rcases List.mem_append.mp hName with hFree | hBinds
        · simp [hFree, hSame]
        · simp [hBinds]
      · omega

end Hygienic

------------------------------------------------------------
-- Bindings in a Row
------------------------------------------------------------

/-
  Two scopes differ in names that are bound, or handed out
  between two numbers, and in no others.
-/
def SameBut
    {V : Type u}
    (binders : List String)
    (c c' : Nat)
    (env env' : Scope V) : Prop :=
  ∀ x, x ∉ binders →
    (∀ k, c ≤ k → k < c' → x ≠ freshName k) → env' x = env x

namespace SameBut

variable {V : Type u}
variable {env env₁ env₂ : Scope V}
variable {binders₁ binders₂ : List String}
variable {c c₁ c₂ : Nat}

theorem refl
    (binders : List String)
    (c c' : Nat)
    (env : Scope V) :
    SameBut binders c c' env env :=
  fun _ _ _ => rfl

/- Changes by two parts in a row. -/
theorem trans
    (hFirst : SameBut binders₁ c c₁ env env₁)
    (hSecond : SameBut binders₂ c₁ c₂ env₁ env₂)
    (hLe : c ≤ c₁)
    (hLe' : c₁ ≤ c₂) :
    SameBut (binders₁ ++ binders₂) c c₂ env env₂ := by
  intro x hBinders hFresh
  simp only [List.mem_append, not_or] at hBinders
  have hOld : env₂ x = env₁ x := by
    apply hSecond x hBinders.2
    intro k hk hk'
    exact hFresh k (by omega) hk'
  have hOlder : env₁ x = env x := by
    apply hFirst x hBinders.1
    intro k hk hk'
    exact hFresh k hk (by omega)
  exact hOld.trans hOlder

/- Changes by what is bound, its name, and what it is for. -/
theorem trans_bind
    {name : String}
    {v : V}
    (hFirst : SameBut binders₁ c c₁ env env₁)
    (hSecond :
      SameBut binders₂ c₁ c₂ (env₁.bind name v) env₂)
    (hLe : c ≤ c₁)
    (hLe' : c₁ ≤ c₂) :
    SameBut (binders₁ ++ name :: binders₂) c c₂ env env₂ := by
  apply trans hFirst ?_ hLe hLe'
  intro x hBinders hFresh
  simp only [List.mem_cons, not_or] at hBinders
  rw [hSecond x hBinders.2 hFresh,
    Scope.bind_of_ne _ _ hBinders.1]

/- A name handed out at the end is one more change. -/
theorem bind_fresh
    (v : V)
    (hSame : SameBut binders₁ c c₁ env env₁)
    (hLe : c ≤ c₁) :
    SameBut binders₁ c (c₁ + 1) env
      (env₁.bind (freshName c₁) v) := by
  intro x hBinders hFresh
  have hNe : x ≠ freshName c₁ :=
    hFresh c₁ hLe (by omega)
  rw [Scope.bind_of_ne _ _ hNe]
  apply hSame x hBinders
  intro k hk hk'
  exact hFresh k hk (by omega)

end SameBut

section Bindings

variable {m : Type u → Type v} [Monad m] {V : Type u}

/- Run bindings in order; the result is the scope behind them. -/
def runBindings
    (I : Interpretation m V) :
    List Binding → Scope V → m (Scope V)
  | [], env => pure env
  | b :: bs, env => do
      let v ← b.bound.meaning I env
      runBindings I bs (env.bind b.name v)

variable [LawfulMonad m]

theorem runBindings_append
    (I : Interpretation m V)
    (first second : List Binding)
    (env : Scope V) :
    runBindings I (first ++ second) env =
      runBindings I first env >>= runBindings I second := by
  induction first generalizing env with
  | nil => simp [runBindings]
  | cons b bs ih => simp [runBindings, ih]

/- Nested bindings run in order, and then comes the result. -/
theorem Flat.nest_meaning
    (I : Interpretation m V)
    (f : Flat)
    (env : Scope V) :
    f.nest.meaning I env =
      runBindings I f.bindings env >>= fun env' =>
        f.result.meaning I env' := by
  rcases f with ⟨bindings, result⟩
  induction bindings generalizing env with
  | nil => simp [Flat.nest, runBindings]
  | cons b bs ih =>
      have hTail := fun v => ih (env.bind b.name v)
      simp only [Flat.nest] at hTail
      simp only [Flat.nest, List.foldr_cons, runBindings,
        bind_assoc]
      rw [Exp.letOf, Exp.meaning]
      simp only [hTail]

end Bindings

------------------------------------------------------------
-- Flattening
------------------------------------------------------------

section Flattening

variable {m : Type u → Type v} [Monad m] {V : Type u}

/-
  Running the bindings and then the result is running the
  expression, for all that comes after and does not look at
  what the bindings have changed.
-/
def Flat.MeansResult
    (I : Interpretation m V)
    (e : Exp)
    (c c' : Nat)
    (f : Flat) : Prop :=
  ∀ {B : Type u} (env : Scope V)
    (k : Scope V → V → m B) (k' : V → m B),
    (∀ env' v, SameBut e.binders c c' env env' →
      k env' v = k' v) →
    (runBindings I f.bindings env >>= fun env' =>
      f.result.meaning I env' >>= k env') =
        e.meaning I env >>= k'

/-
  So it is for operands, whose values can be looked up behind
  the bindings.
-/
def MeansOperands
    (I : Interpretation m V)
    (es : List Exp)
    (c c' : Nat)
    (bindings : List Binding)
    (results : List Exp) : Prop :=
  ∀ {B : Type u} (env : Scope V)
    (k : Scope V → m B) (k' : List V → m B),
    (∀ env' vs, SameBut (bindersOf es) c c' env env' →
      results.map (Exp.value? I env') = vs.map some →
      k env' = k' vs) →
    runBindings I bindings env >>= k = meanings I env es >>= k'

/- Operands use no names but old free and handed out ones. -/
def NamesFrom
    (free : List String)
    (c c' : Nat)
    (results : List String) : Prop :=
  ∀ x ∈ results,
    x ∈ free ∨ ∃ k, c ≤ k ∧ k < c' ∧ x = freshName k

/- What flattening operands gives. -/
structure OperandsOk
    (I : Interpretation m V)
    (es : List Exp)
    (c c' : Nat)
    (bindings : List Binding)
    (results : List Exp) : Prop where
  later : c ≤ c'
  names : NamesFrom (freeVarsOf es) c c' (freeVarsOf results)
  types : results.map Exp.ty = es.map Exp.ty
  means : MeansOperands I es c c' bindings results

theorem freeVarsOf_append
    (es es' : List Exp) :
    freeVarsOf (es ++ es') = freeVarsOf es ++ freeVarsOf es' := by
  induction es with
  | nil => rfl
  | cons e es ih => simp [freeVarsOf, ih]

theorem bindersOf_append
    (es es' : List Exp) :
    bindersOf (es ++ es') = bindersOf es ++ bindersOf es' := by
  induction es with
  | nil => rfl
  | cons e es ih => simp [bindersOf, ih]

theorem freeVars_subset_freeVarsOf
    {e : Exp}
    {es : List Exp}
    (hMem : e ∈ es) :
    e.freeVars ⊆ freeVarsOf es := by
  intro x hx
  induction es with
  | nil => cases hMem
  | cons head tail ih =>
      rcases List.mem_cons.mp hMem with rfl | hTail
      · simp [freeVarsOf, hx]
      · simp [freeVarsOf, ih hTail]

/-
  What a second part binds is nothing that the operands of a
  first part use.
-/
omit [Monad m] in
theorem values_of_sameBut
    (I : Interpretation m V)
    {es es' results : List Exp}
    {c c₁ c₂ : Nat}
    {env₁ env₂ : Scope V}
    (hHygienic :
      Hygienic (bindersOf es ++ bindersOf es')
        (freeVarsOf es ++ freeVarsOf es') c)
    (hNames :
      NamesFrom (freeVarsOf es) c c₁ (freeVarsOf results))
    (hLater : c ≤ c₁)
    (hSame : SameBut (bindersOf es') c₁ c₂ env₁ env₂) :
    results.map (Exp.value? I env₂) =
      results.map (Exp.value? I env₁) := by
  apply List.map_congr_left
  intro e hMem
  apply Exp.value?_congr
  intro x hx
  rcases hNames x (freeVars_subset_freeVarsOf hMem hx) with
    hOld | ⟨k, hk, hk', rfl⟩
  · apply hSame
    · intro hBinds
      exact hHygienic.apart x (by simp [hBinds]) (by simp [hOld])
    · intro k hk _
      exact hHygienic.unused x (by simp [hOld]) k (by omega)
  · apply hSame
    · intro hBinds
      exact hHygienic.unused _ (by simp [hBinds]) k hk rfl
    · intro j hj _ hEq
      have hIndex := freshName_injective hEq
      omega

/- What a first part binds is nothing that a second part uses. -/
theorem agree_of_sameBut
    {binders binders' free free' : List String}
    {c c₁ : Nat}
    {env env₁ : Scope V}
    (hHygienic :
      Hygienic (binders ++ binders') (free ++ free') c)
    (hSame : SameBut binders c c₁ env env₁) :
    ∀ x ∈ free', env₁ x = env x := by
  intro x hx
  apply hSame
  · intro hBinds
    exact hHygienic.apart x (by simp [hBinds]) (by simp [hx])
  · intro k hk _
    exact hHygienic.unused x (by simp [hx]) k hk

variable [LawfulMonad m]

theorem meanings_append
    (I : Interpretation m V)
    (env : Scope V)
    (es es' : List Exp) :
    meanings I env (es ++ es') =
      meanings I env es >>= fun vs =>
        meanings I env es' >>= fun vs' => pure (vs ++ vs') := by
  induction es with
  | nil => simp [meanings]
  | cons e es ih => simp [meanings, ih]

/- Operands behind operands. -/
theorem OperandsOk.append
    {I : Interpretation m V}
    {es es' results results' : List Exp}
    {bindings bindings' : List Binding}
    {c c₁ c₂ : Nat}
    (hHygienic :
      Hygienic (bindersOf es ++ bindersOf es')
        (freeVarsOf es ++ freeVarsOf es') c)
    (hFirst : OperandsOk I es c c₁ bindings results)
    (hSecond : OperandsOk I es' c₁ c₂ bindings' results') :
    OperandsOk I (es ++ es') c c₂ (bindings ++ bindings')
      (results ++ results') where
  later := Nat.le_trans hFirst.later hSecond.later
  names := by
    have hLe := hFirst.later
    have hLe' := hSecond.later
    intro x hx
    rw [freeVarsOf_append] at hx ⊢
    rcases List.mem_append.mp hx with hx | hx
    · rcases hFirst.names x hx with hOld | ⟨k, hk, hk', hEq⟩
      · exact Or.inl (by simp [hOld])
      · exact Or.inr ⟨k, hk, by omega, hEq⟩
    · rcases hSecond.names x hx with hOld | ⟨k, hk, hk', hEq⟩
      · exact Or.inl (by simp [hOld])
      · exact Or.inr ⟨k, by omega, hk', hEq⟩
  types := by simp [hFirst.types, hSecond.types]
  means := by
    intro B env k k' hk
    rw [runBindings_append, meanings_append, bind_assoc,
      bind_assoc]
    apply hFirst.means env
      (fun env₁ => runBindings I bindings' env₁ >>= k)
      (fun vs => (meanings I env es' >>= fun vs' =>
        pure (vs ++ vs')) >>= k')
    intro env₁ vs hSame hValues
    have hUses :
        meanings I env es' = meanings I env₁ es' :=
      meanings_congr I es' fun x hx =>
        (agree_of_sameBut hHygienic hSame x hx).symm
    simp only [bind_assoc, pure_bind, hUses]
    apply hSecond.means env₁ k (fun vs' => k' (vs ++ vs'))
    intro env₂ vs' hSame' hValues'
    apply hk
    · rw [bindersOf_append]
      exact hSame.trans hSame' hFirst.later hSecond.later
    · have hKept :=
        values_of_sameBut I hHygienic hFirst.names hFirst.later
          hSame'
      simp only [List.map_append, hKept, hValues, hValues']

/- Without bindings, the result is the expression. -/
theorem Flat.meansResult_of_no_bindings
    (I : Interpretation m V)
    (e : Exp)
    (c : Nat) :
    Flat.MeansResult I e c c { bindings := [], result := e } := by
  intro B env k k' hk
  simp only [runBindings, pure_bind]
  exact bind_congr fun v => hk env v (SameBut.refl _ _ _ _)

/- An operand is what it was, or a name for what it was. -/
theorem operand_ok
    {I : Interpretation m V}
    {e : Exp}
    {c c' : Nat}
    {f : Flat}
    (hFlat : Yields (Flat.operand e e.flatten) c f c')
    (hMeans :
      ∀ {c' f}, Yields e.flatten c f c' →
        c ≤ c' ∧ f.MeansResult I e c c') :
    OperandsOk I [e] c c' f.bindings [f.result] := by
  unfold Flat.operand at hFlat
  by_cases hImmediate : e.isImmediate = true
  · rw [if_pos hImmediate, yields_pure] at hFlat
    rcases hFlat with ⟨rfl, rfl⟩
    refine ⟨Nat.le_refl _, ?_, rfl, ?_⟩
    · intro x hx
      exact Or.inl hx
    · intro B env k k' hk
      have hValue : ∃ v, e.value? I env = some v := by
        cases e <;> simp_all [Exp.value?, Exp.isImmediate]
      rcases hValue with ⟨v, hValue⟩
      simp only [runBindings, meanings, pure_bind,
        Exp.meaning_of_value I env hValue]
      exact hk env [v] (SameBut.refl _ _ _ _) (by simp [hValue])
  · rw [if_neg hImmediate] at hFlat
    simp only [yields_bind, yields_pure] at hFlat
    rcases hFlat with
      ⟨g, c₁, hFlat, name, c₂, hFresh, rfl, rfl⟩
    rcases hMeans hFlat with ⟨hLater, hResult⟩
    rcases Yields.unique hFresh (yields_fresh c₁) with ⟨rfl, rfl⟩
    refine ⟨by omega, ?_, rfl, ?_⟩
    · intro x hx
      simp only [freeVarsOf, Exp.freeVars, List.append_nil,
        List.mem_singleton] at hx
      exact Or.inr ⟨c₁, hLater, by omega, hx⟩
    · intro B env k k' hk
      simp only [runBindings_append, runBindings, bind_assoc,
        pure_bind, meanings]
      apply hResult env
        (fun env' v => k (env'.bind (freshName c₁) v))
        (fun v => k' [v])
      intro env' v hSame
      apply hk
      · simp only [bindersOf, List.append_nil]
        exact hSame.bind_fresh v hLater
      · simp [Exp.value?]

/- The value of a list of operands is all that they mean. -/
theorem meanings_of_values
    (I : Interpretation m V)
    (env : Scope V)
    {es : List Exp}
    {vs : List V}
    (hValues : es.map (Exp.value? I env) = vs.map some) :
    meanings I env es = pure vs := by
  induction es generalizing vs with
  | nil =>
      cases vs with
      | nil => rfl
      | cons v vs => simp at hValues
  | cons e es ih =>
      cases vs with
      | nil => simp at hValues
      | cons v vs =>
          simp only [List.map_cons, List.cons.injEq] at hValues
          simp [meanings, Exp.meaning_of_value I env hValues.1,
            ih hValues.2]

/-
  An expression that works on the values of its operands means
  what its counterpart on their results means.
-/
theorem OperandsOk.result
    {I : Interpretation m V}
    {e r : Exp}
    {es results : List Exp}
    {bindings : List Binding}
    {c c' : Nat}
    (operate : Scope V → List V → m V)
    (hOk : OperandsOk I es c c' bindings results)
    (hBinders : e.binders = bindersOf es)
    (hWhole : ∀ env,
      e.meaning I env = meanings I env es >>= operate env)
    (hResult : ∀ env env' vs,
      results.map (Exp.value? I env') = vs.map some →
        r.meaning I env' = operate env vs) :
    Flat.MeansResult I e c c' { bindings, result := r } := by
  intro B env k k' hk
  rw [hWhole, bind_assoc]
  apply hOk.means env (fun env' => r.meaning I env' >>= k env')
    (fun vs => operate env vs >>= k')
  intro env' vs hSame hValues
  rw [hResult env env' vs hValues]
  rw [← hBinders] at hSame
  exact bind_congr fun v => hk env' v hSame

/-
  A binding means what its parts mean: only names that the
  body does not use have changed behind what is bound.
-/
theorem Flat.MeansResult.letIn
    {I : Interpretation m V}
    {name : String}
    {bound body : Exp}
    {ty : ValueType}
    {f rest : Flat}
    {c c₁ c₂ : Nat}
    (hBound : f.MeansResult I bound c c₁)
    (hHygienic :
      Hygienic (bound.binders ++ name :: body.binders)
        (bound.freeVars ++ body.freeVars.filter (· != name)) c)
    (hLe : c ≤ c₁)
    (hLe' : c₁ ≤ c₂)
    (hBody : rest.MeansResult I body c₁ c₂) :
    Flat.MeansResult I (.letIn name bound body ty) c c₂ {
      bindings :=
        f.bindings ++ { name, bound := f.result } ::
          rest.bindings
      result := rest.result } := by
  intro B env k k' hk
  simp only [runBindings_append, runBindings, bind_assoc,
    Exp.meaning]
  apply hBound env
    (fun env₁ v =>
      runBindings I rest.bindings (env₁.bind name v) >>=
        fun env₂ => rest.result.meaning I env₂ >>= k env₂)
    (fun v => body.meaning I (env.bind name v) >>= k')
  intro env₁ v hSame
  have hUses :
      body.meaning I (env.bind name v) =
        body.meaning I (env₁.bind name v) := by
    apply body.meaning_congr
    intro x hx
    by_cases hName : x = name
    · subst hName
      simp
    · rw [Scope.bind_of_ne _ _ hName,
        Scope.bind_of_ne _ _ hName]
      have hFree : x ∈ body.freeVars.filter (· != name) := by
        simp [hx, hName]
      exact (agree_of_sameBut hHygienic hSame x hFree).symm
  rw [hUses]
  apply hBody (env₁.bind name v) k k'
  intro env₂ w hSame'
  exact hk env₂ w (hSame.trans_bind hSame' hLe hLe')

mutual

/- A flattened expression means what the expression means. -/
theorem Exp.flatten_meaning
    (I : Interpretation m V)
    (e : Exp)
    {c c' : Nat}
    {f : Flat}
    (hFlat : Yields e.flatten c f c')
    (hHygienic : Hygienic e.binders e.freeVars c) :
    c ≤ c' ∧ f.MeansResult I e c c' := by
  cases e with
  | letIn name bound body ty =>
      simp only [Exp.flatten, yields_bind, yields_pure] at hFlat
      rcases hFlat with
        ⟨g, c₁, hBound, rest, c₂, hBody, rfl, rfl⟩
      rcases bound.flatten_meaning I hBound hHygienic.bound with
        ⟨hLe, hBoundMeans⟩
      rcases body.flatten_meaning I hBody (hHygienic.body hLe) with
        ⟨hLe', hBodyMeans⟩
      exact ⟨Nat.le_trans hLe hLe',
        hBoundMeans.letIn hHygienic hLe hLe' hBodyMeans⟩
  | apply function args ty =>
      simp only [Exp.flatten, yields_bind, yields_pure] at hFlat
      rcases hFlat with
        ⟨g, c₁, hFunction, ⟨bindings, results⟩, c₂, hArgs, rfl,
          rfl⟩
      have hParts := hHygienic
      simp only [Exp.binders, Exp.freeVars] at hParts
      have hFunctionOk :=
        operand_ok (I := I) hFunction fun h =>
          function.flatten_meaning I h hParts.left
      have hArgsOk :=
        flattenArgs_ok I args hArgs
          (hParts.right hFunctionOk.later)
      have hOk :=
        hFunctionOk.append
          (by simpa [bindersOf, freeVarsOf] using hParts) hArgsOk
      have hTypes := hOk.types
      simp only [List.cons_append, List.nil_append,
        List.map_cons, List.cons.injEq] at hTypes
      refine ⟨hOk.later, hOk.result
        (fun env vs => match vs with
          | v :: vs =>
              I.apply ty (v, function.ty) (vs.zip (args.map Exp.ty))
          | [] => (Exp.apply function args ty).meaning I env)
        (by simp [Exp.binders, bindersOf])
        (fun env => by simp [meanings, Exp.meaning]) ?_⟩
      intro env env' vs hValues
      cases vs with
      | nil => simp at hValues
      | cons v vs =>
          simp only [List.cons_append, List.nil_append,
            List.map_cons, List.cons.injEq] at hValues
          simp only [Exp.meaning,
            Exp.meaning_of_value I env' hValues.1,
            meanings_of_values I env' hValues.2,
            pure_bind, hTypes.1, hTypes.2]
  | eval strategy input ty =>
      simp only [Exp.flatten, yields_bind, yields_pure] at hFlat
      rcases hFlat with
        ⟨g, c₁, hStrategy, i, c₂, hInput, rfl, rfl⟩
      have hParts := hHygienic
      simp only [Exp.binders, Exp.freeVars] at hParts
      have hStrategyOk :=
        operand_ok (I := I) hStrategy fun h =>
          strategy.flatten_meaning I h hParts.left
      have hInputOk :=
        operand_ok (I := I) hInput fun h =>
          input.flatten_meaning I h
            (hParts.right hStrategyOk.later)
      have hOk :=
        hStrategyOk.append
          (by simpa [bindersOf, freeVarsOf] using hParts) hInputOk
      have hTypes := hOk.types
      simp only [List.cons_append, List.nil_append,
        List.map_cons, List.map_nil, List.cons.injEq,
        and_true] at hTypes
      refine ⟨hOk.later, hOk.result
        (fun env vs => match vs with
          | [s, v] => I.eval ty (s, strategy.ty) (v, input.ty)
          | _ => (Exp.eval strategy input ty).meaning I env)
        (by simp [Exp.binders, bindersOf])
        (fun env => by simp [meanings, Exp.meaning]) ?_⟩
      intro env env' vs hValues
      match vs, hValues with
      | [s, v], hValues =>
          simp only [List.cons_append, List.nil_append,
            List.map_cons, List.map_nil, List.cons.injEq,
            and_true] at hValues
          simp only [Exp.meaning,
            Exp.meaning_of_value I env' hValues.1,
            Exp.meaning_of_value I env' hValues.2,
            pure_bind, hTypes.1, hTypes.2]
      | [], hValues => simp at hValues
      | [_], hValues => simp at hValues
      | _ :: _ :: _ :: _, hValues => simp at hValues
  | seq first second ty =>
      simp [Exp.flatten] at hFlat
  | var name pointer ty =>
      simp only [Exp.flatten, yields_pure] at hFlat
      rcases hFlat with ⟨rfl, rfl⟩
      exact ⟨Nat.le_refl _, Flat.meansResult_of_no_bindings I _ c'⟩
  | int value ty =>
      simp only [Exp.flatten, yields_pure] at hFlat
      rcases hFlat with ⟨rfl, rfl⟩
      exact ⟨Nat.le_refl _, Flat.meansResult_of_no_bindings I _ c'⟩
  | str value ty =>
      simp only [Exp.flatten, yields_pure] at hFlat
      rcases hFlat with ⟨rfl, rfl⟩
      exact ⟨Nat.le_refl _, Flat.meansResult_of_no_bindings I _ c'⟩
  | object ty =>
      simp only [Exp.flatten, yields_pure] at hFlat
      rcases hFlat with ⟨rfl, rfl⟩
      exact ⟨Nat.le_refl _, Flat.meansResult_of_no_bindings I _ c'⟩

/- Flattened operands mean what the operands mean. -/
theorem flattenArgs_ok
    (I : Interpretation m V)
    (es : List Exp)
    {c c' : Nat}
    {bindings : List Binding}
    {results : List Exp}
    (hFlat : Yields (flattenArgs es) c (bindings, results) c')
    (hHygienic : Hygienic (bindersOf es) (freeVarsOf es) c) :
    OperandsOk I es c c' bindings results := by
  cases es with
  | nil =>
      simp only [flattenArgs, yields_pure, Prod.mk.injEq] at hFlat
      rcases hFlat with ⟨⟨rfl, rfl⟩, rfl⟩
      refine ⟨Nat.le_refl _, ?_, rfl, ?_⟩
      · intro x hx
        exact Or.inl hx
      · intro B env k k' hk
        simp only [runBindings, meanings, pure_bind]
        exact hk env [] (SameBut.refl _ _ _ _) rfl
  | cons e es =>
      simp only [flattenArgs, yields_bind, yields_pure,
        Prod.mk.injEq] at hFlat
      rcases hFlat with
        ⟨g, c₁, hHead, ⟨bindings', results'⟩, c₂, hTail,
          ⟨rfl, rfl⟩, rfl⟩
      have hHeadOk :=
        operand_ok (I := I) hHead fun h =>
          e.flatten_meaning I h hHygienic.left
      have hTailOk :=
        flattenArgs_ok I es hTail (hHygienic.right hHeadOk.later)
      exact
        hHeadOk.append (by simpa [bindersOf, freeVarsOf] using
          hHygienic) hTailOk

end

end Flattening

------------------------------------------------------------
-- Normal Forms
------------------------------------------------------------

/- An operand is flattened if its expression is. -/
theorem exists_operand
    (e : Exp)
    (c : Nat)
    (hFlat : ∃ f c', Yields e.flatten c f c') :
    ∃ f c', Yields (Flat.operand e e.flatten) c f c' := by
  unfold Flat.operand
  by_cases hImmediate : e.isImmediate = true
  · rw [if_pos hImmediate]
    exact ⟨_, c, yields_pure.mpr ⟨rfl, rfl⟩⟩
  · rw [if_neg hImmediate]
    rcases hFlat with ⟨f, c₁, hFlat⟩
    exact ⟨_, c₁ + 1, yields_bind.mpr ⟨f, c₁, hFlat,
      yields_bind.mpr ⟨_, _, yields_fresh c₁,
        yields_pure.mpr ⟨rfl, rfl⟩⟩⟩⟩

mutual

/- Only sequences cannot be flattened. -/
theorem Exp.exists_flatten
    (e : Exp)
    (c : Nat)
    (hSeqFree : e.isSeqFree = true) :
    ∃ f c', Yields e.flatten c f c' := by
  cases e with
  | letIn name bound body ty =>
      simp only [Exp.isSeqFree, Bool.and_eq_true] at hSeqFree
      rcases bound.exists_flatten c hSeqFree.1 with
        ⟨f, c₁, hBound⟩
      rcases body.exists_flatten c₁ hSeqFree.2 with
        ⟨rest, c₂, hBody⟩
      exact ⟨_, c₂, yields_bind.mpr ⟨f, c₁, hBound,
        yields_bind.mpr ⟨rest, c₂, hBody,
          yields_pure.mpr ⟨rfl, rfl⟩⟩⟩⟩
  | apply function args ty =>
      simp only [Exp.isSeqFree, Bool.and_eq_true] at hSeqFree
      rcases exists_operand function c
          (function.exists_flatten c hSeqFree.1) with
        ⟨f, c₁, hFunction⟩
      rcases exists_flattenArgs args c₁ hSeqFree.2 with
        ⟨as, c₂, hArgs⟩
      exact ⟨_, c₂, yields_bind.mpr ⟨f, c₁, hFunction,
        yields_bind.mpr ⟨as, c₂, hArgs,
          yields_pure.mpr ⟨rfl, rfl⟩⟩⟩⟩
  | eval strategy input ty =>
      simp only [Exp.isSeqFree, Bool.and_eq_true] at hSeqFree
      rcases exists_operand strategy c
          (strategy.exists_flatten c hSeqFree.1) with
        ⟨s, c₁, hStrategy⟩
      rcases exists_operand input c₁
          (input.exists_flatten c₁ hSeqFree.2) with
        ⟨i, c₂, hInput⟩
      exact ⟨_, c₂, yields_bind.mpr ⟨s, c₁, hStrategy,
        yields_bind.mpr ⟨i, c₂, hInput,
          yields_pure.mpr ⟨rfl, rfl⟩⟩⟩⟩
  | seq first second ty => simp [Exp.isSeqFree] at hSeqFree
  | var name pointer ty =>
      exact ⟨_, c, yields_pure.mpr ⟨rfl, rfl⟩⟩
  | int value ty => exact ⟨_, c, yields_pure.mpr ⟨rfl, rfl⟩⟩
  | str value ty => exact ⟨_, c, yields_pure.mpr ⟨rfl, rfl⟩⟩
  | object ty => exact ⟨_, c, yields_pure.mpr ⟨rfl, rfl⟩⟩

theorem exists_flattenArgs
    (es : List Exp)
    (c : Nat)
    (hSeqFree : areSeqFree es = true) :
    ∃ as c', Yields (flattenArgs es) c as c' := by
  cases es with
  | nil => exact ⟨_, c, yields_pure.mpr ⟨rfl, rfl⟩⟩
  | cons e es =>
      simp only [areSeqFree, Bool.and_eq_true] at hSeqFree
      rcases exists_operand e c
          (e.exists_flatten c hSeqFree.1) with
        ⟨f, c₁, hHead⟩
      rcases exists_flattenArgs es c₁ hSeqFree.2 with
        ⟨as, c₂, hTail⟩
      exact ⟨_, c₂, yields_bind.mpr ⟨f, c₁, hHead,
        yields_bind.mpr ⟨as, c₂, hTail,
          yields_pure.mpr ⟨rfl, rfl⟩⟩⟩⟩

end

/-
  An expression without sequences has a normal form, whatever
  the number of names handed out before.  If its names keep
  apart, the normal form is the same computation, in every
  scope and whatever applying and evaluating do: it gives the
  same value, and it has the same effects in the same order.
-/
theorem Exp.normalize_meaning
    (e : Exp)
    (c : Nat)
    (hSeqFree : e.isSeqFree = true)
    (hDistinct : e.binders.Nodup)
    (hApart : ∀ x ∈ e.binders, x ∉ e.freeVars)
    (hUnused : ∀ x ∈ e.names, ∀ k, c ≤ k → x ≠ freshName k) :
    ∃ r c', Yields e.normalize c r c' ∧
      ∀ {m : Type u → Type v} [Monad m] [LawfulMonad m]
        {V : Type u} (I : Interpretation m V) (env : Scope V),
        r.meaning I env = e.meaning I env := by
  rcases e.exists_flatten c hSeqFree with ⟨f, c', hFlat⟩
  refine ⟨f.nest, c', ?_, ?_⟩
  · exact yields_bind.mpr ⟨f, c', hFlat,
      yields_pure.mpr ⟨rfl, rfl⟩⟩
  · intro m _ _ V I env
    have hHygienic : Hygienic e.binders e.freeVars c :=
      ⟨hDistinct, hApart, hUnused⟩
    have hMeans :=
      (e.flatten_meaning I hFlat hHygienic).2 env
        (fun _ v => pure v) pure (fun _ _ _ => rfl)
    rw [f.nest_meaning I env]
    simpa using hMeans

/-
  A binding inside an operand, next to an operand that stays:
  `eval(f(t), let y = eval(s, x); eval(t, y))`.
-/
def bindingInOperand : Exp :=
  let any := ValueType.base .any
  .eval
    (.apply (.var "f" none any) [.var "t" none any] any)
    (.letIn "y"
      (.eval (.var "s" none any) (.var "x" none any) any)
      (.eval (.var "t" none any) (.var "y" none any) any) any)
    any

theorem bindingInOperand_meaning :
    ∃ r c', Yields bindingInOperand.normalize 3 r c' ∧
      ∀ (I : Interpretation (StateM (List Nat)) Nat)
        (env : Scope Nat),
        r.meaning I env = bindingInOperand.meaning I env := by
  have hShort : ∀ x ∈ bindingInOperand.names, x.length = 1 := by
    decide
  have hUnused :
      ∀ x ∈ bindingInOperand.names, ∀ k, 3 ≤ k →
        x ≠ freshName k := by
    rintro _ hx k _ rfl
    have hLong : (freshName k).length = 4 + k.repr.length := by
      simp [freshName, toString]
      rfl
    have hOne := hShort _ hx
    omega
  rcases Exp.normalize_meaning.{0, 0} bindingInOperand 3
      (by decide) (by decide) (by decide) hUnused with
    ⟨r, c', hNormal, hMeans⟩
  exact ⟨r, c', hNormal, fun I env => hMeans I env⟩

end Stratagem

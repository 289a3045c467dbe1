import Stratagem.Program.Normalize

/-
  What expressions mean.

  Applying and evaluating strategies may have effects of any
  sort, so the meaning of an expression is a computation in a
  monad.  Variables and constants have values and no effects.

  Key definitions include:
    * `Scope`
    * `Interpretation`
    * `Exp.meaning`
    * `Exp.freeVars`
    * `Exp.binders`
    * `Exp.names`
    * `Exp.isSeqFree`

  Main declarations:
    * `Exp.meaning_congr`
-/

namespace Stratagem

universe u v

------------------------------------------------------------
-- Scopes
------------------------------------------------------------

/- The values of the names in scope. -/
abbrev Scope (V : Type u) :=
  String → Option V

namespace Scope

variable {V : Type u}

/- One more name; it hides an older one that is the same. -/
def bind
    (env : Scope V)
    (name : String)
    (v : V) : Scope V :=
  fun x => if x = name then some v else env x

@[simp] theorem bind_self
    (env : Scope V)
    (name : String)
    (v : V) :
    env.bind name v name = some v := by
  simp [bind]

theorem bind_of_ne
    (env : Scope V)
    {name x : String}
    (v : V)
    (hNe : x ≠ name) :
    env.bind name v x = env x := by
  simp [bind, hNe]

end Scope

------------------------------------------------------------
-- Interpretations
------------------------------------------------------------

/-
  What constants and free names stand for, and what applying
  and evaluating do.  An operand comes with its type.
-/
structure Interpretation (m : Type u → Type v) (V : Type u) where
  global : String → Option Pointer → V
  int : Int32 → ValueType → V
  str : String → ValueType → V
  object : ValueType → V
  apply : ValueType → V × ValueType → List (V × ValueType) → m V
  eval : ValueType → V × ValueType → V × ValueType → m V

/- The value of a variable or a constant. -/
def Exp.value?
    {m : Type u → Type v}
    {V : Type u}
    (I : Interpretation m V)
    (env : Scope V) : Exp → Option V
  | .var name pointer _ =>
      some ((env name).getD (I.global name pointer))
  | .int n ty => some (I.int n ty)
  | .str s ty => some (I.str s ty)
  | .object ty => some (I.object ty)
  | _ => none

section Meaning

variable {m : Type u → Type v} [Monad m] {V : Type u}

mutual

/- The computation that an expression stands for. -/
def Exp.meaning
    (I : Interpretation m V)
    (env : Scope V) : Exp → m V
  | .letIn name bound body _ => do
      let v ← bound.meaning I env
      body.meaning I (env.bind name v)
  | .apply function args ty => do
      let f ← function.meaning I env
      let vs ← meanings I env args
      I.apply ty (f, function.ty) (vs.zip (args.map Exp.ty))
  | .eval strategy input ty => do
      let s ← strategy.meaning I env
      let v ← input.meaning I env
      I.eval ty (s, strategy.ty) (v, input.ty)
  | .seq first second _ => do
      let _ ← first.meaning I env
      second.meaning I env
  | .var name pointer _ =>
      pure ((env name).getD (I.global name pointer))
  | .int n ty => pure (I.int n ty)
  | .str s ty => pure (I.str s ty)
  | .object ty => pure (I.object ty)

/- Operands from left to right. -/
def meanings
    (I : Interpretation m V)
    (env : Scope V) : List Exp → m (List V)
  | [] => pure []
  | e :: es => do
      let v ← e.meaning I env
      let vs ← meanings I env es
      pure (v :: vs)

end

end Meaning

------------------------------------------------------------
-- Names
------------------------------------------------------------

mutual

/- The names that an expression uses and does not bind. -/
def Exp.freeVars : Exp → List String
  | .letIn name bound body _ =>
      bound.freeVars ++ body.freeVars.filter (· != name)
  | .apply function args _ =>
      function.freeVars ++ freeVarsOf args
  | .eval strategy input _ => strategy.freeVars ++ input.freeVars
  | .seq first second _ => first.freeVars ++ second.freeVars
  | .var name _ _ => [name]
  | .int _ _ => []
  | .str _ _ => []
  | .object _ => []

def freeVarsOf : List Exp → List String
  | [] => []
  | e :: es => e.freeVars ++ freeVarsOf es

end

mutual

/- The names that an expression binds. -/
def Exp.binders : Exp → List String
  | .letIn name bound body _ =>
      bound.binders ++ name :: body.binders
  | .apply function args _ => function.binders ++ bindersOf args
  | .eval strategy input _ => strategy.binders ++ input.binders
  | .seq first second _ => first.binders ++ second.binders
  | .var _ _ _ => []
  | .int _ _ => []
  | .str _ _ => []
  | .object _ => []

def bindersOf : List Exp → List String
  | [] => []
  | e :: es => e.binders ++ bindersOf es

end

/- The names that occur in an expression, free or bound. -/
def Exp.names
    (e : Exp) : List String :=
  e.freeVars ++ e.binders

mutual

/- Whether an expression holds no sequence. -/
def Exp.isSeqFree : Exp → Bool
  | .letIn _ bound body _ => bound.isSeqFree && body.isSeqFree
  | .apply function args _ =>
      function.isSeqFree && areSeqFree args
  | .eval strategy input _ =>
      strategy.isSeqFree && input.isSeqFree
  | .seq _ _ _ => false
  | .var _ _ _ => true
  | .int _ _ => true
  | .str _ _ => true
  | .object _ => true

def areSeqFree : List Exp → Bool
  | [] => true
  | e :: es => e.isSeqFree && areSeqFree es

end

------------------------------------------------------------
-- Congruence
------------------------------------------------------------

section Congruence

variable {m : Type u → Type v} [Monad m] {V : Type u}

/- The value of an immediate expression is all that it means. -/
theorem Exp.meaning_of_value
    (I : Interpretation m V)
    (env : Scope V)
    {e : Exp}
    {v : V}
    (hValue : e.value? I env = some v) :
    e.meaning I env = pure v := by
  cases e <;>
    simp only [Exp.value?, Option.some.injEq,
      reduceCtorEq] at hValue <;>
    simp only [Exp.meaning, hValue]

mutual

/- A meaning depends on the names that are used freely only. -/
theorem Exp.meaning_congr
    (I : Interpretation m V)
    (e : Exp)
    {env env' : Scope V}
    (hAgree : ∀ x ∈ e.freeVars, env x = env' x) :
    e.meaning I env = e.meaning I env' := by
  cases e with
  | letIn name bound body ty =>
      have hBound :
          bound.meaning I env = bound.meaning I env' := by
        apply bound.meaning_congr
        intro x hx
        exact hAgree x (by simp [Exp.freeVars, hx])
      have hBody :
          ∀ v, body.meaning I (env.bind name v) =
            body.meaning I (env'.bind name v) := by
        intro v
        apply body.meaning_congr
        intro x hx
        by_cases hName : x = name
        · subst hName
          simp
        · rw [Scope.bind_of_ne _ _ hName,
            Scope.bind_of_ne _ _ hName]
          exact hAgree x (by simp [Exp.freeVars, hx, hName])
      simp only [Exp.meaning, hBound, hBody]
  | apply function args ty =>
      have hFunction :
          function.meaning I env = function.meaning I env' := by
        apply function.meaning_congr
        intro x hx
        exact hAgree x (by simp [Exp.freeVars, hx])
      have hArgs : meanings I env args = meanings I env' args := by
        apply meanings_congr
        intro x hx
        exact hAgree x (by simp [Exp.freeVars, hx])
      simp only [Exp.meaning, hFunction, hArgs]
  | eval strategy input ty =>
      have hStrategy :
          strategy.meaning I env = strategy.meaning I env' := by
        apply strategy.meaning_congr
        intro x hx
        exact hAgree x (by simp [Exp.freeVars, hx])
      have hInput : input.meaning I env = input.meaning I env' := by
        apply input.meaning_congr
        intro x hx
        exact hAgree x (by simp [Exp.freeVars, hx])
      simp only [Exp.meaning, hStrategy, hInput]
  | seq first second ty =>
      have hFirst : first.meaning I env = first.meaning I env' := by
        apply first.meaning_congr
        intro x hx
        exact hAgree x (by simp [Exp.freeVars, hx])
      have hSecond :
          second.meaning I env = second.meaning I env' := by
        apply second.meaning_congr
        intro x hx
        exact hAgree x (by simp [Exp.freeVars, hx])
      simp only [Exp.meaning, hFirst, hSecond]
  | var name pointer ty =>
      have hName : env name = env' name :=
        hAgree name (by simp [Exp.freeVars])
      simp only [Exp.meaning, hName]
  | int value ty => rfl
  | str value ty => rfl
  | object ty => rfl

theorem meanings_congr
    (I : Interpretation m V)
    (es : List Exp)
    {env env' : Scope V}
    (hAgree : ∀ x ∈ freeVarsOf es, env x = env' x) :
    meanings I env es = meanings I env' es := by
  cases es with
  | nil => rfl
  | cons e es =>
      have hHead : e.meaning I env = e.meaning I env' := by
        apply e.meaning_congr
        intro x hx
        exact hAgree x (by simp [freeVarsOf, hx])
      have hTail : meanings I env es = meanings I env' es := by
        apply meanings_congr
        intro x hx
        exact hAgree x (by simp [freeVarsOf, hx])
      simp only [meanings, hHead, hTail]

end

/- So does a value. -/
omit [Monad m] in
theorem Exp.value?_congr
    (I : Interpretation m V)
    (e : Exp)
    {env env' : Scope V}
    (hAgree : ∀ x ∈ e.freeVars, env x = env' x) :
    e.value? I env = e.value? I env' := by
  cases e with
  | var name pointer ty =>
      have hName : env name = env' name :=
        hAgree name (by simp [Exp.freeVars])
      simp only [Exp.value?, hName]
  | letIn name bound body ty => rfl
  | apply function args ty => rfl
  | eval strategy input ty => rfl
  | seq first second ty => rfl
  | int value ty => rfl
  | str value ty => rfl
  | object ty => rfl

end Congruence

end Stratagem

import Mathlib.Data.List.Forall2
import Mathlib.Data.List.ReduceOption
import Stratagem.Proofs.Program.NormalForm

/-
  Normal forms compute in the order of the expressions.

  The computations of an expression, operands before what they
  are operands of and from left to right, stand in this order
  on the spine of its normal form.  New names are handed out
  in order too, one for each operand that is a computation.

  Key definitions include:
    * `Exp.nodes`
    * `Exp.plan`
    * `Exp.lifted`
    * `Exp.spine`

  Main declarations:
    * `Exp.flatten_follows`
    * `count_numbered`
    * `Exp.normalize_order`
-/

namespace Stratagem

------------------------------------------------------------
-- Computations
------------------------------------------------------------

/- Whether an expression applies or evaluates something. -/
def Exp.isNode : Exp → Bool
  | .apply _ _ _ => true
  | .eval _ _ _ => true
  | _ => false

/- What an expression applies or evaluates, and to what. -/
def Exp.operands : Exp → List Exp
  | .apply function args _ => function :: args
  | .eval strategy input _ => [strategy, input]
  | _ => []

/- The kind of a computation, its operands' number, its type. -/
def Exp.heading
    (e : Exp) : String × Nat × ValueType :=
  (e.kindName, e.operands.length, e.ty)

mutual

/- The computations of an expression in the order they run. -/
def Exp.nodes : Exp → List Exp
  | .letIn _ bound body _ => bound.nodes ++ body.nodes
  | .apply function args ty =>
      function.nodes ++ nodesOf args ++ [.apply function args ty]
  | .eval strategy input ty =>
      strategy.nodes ++ input.nodes ++ [.eval strategy input ty]
  | .seq first second _ => first.nodes ++ second.nodes
  | .var _ _ _ => []
  | .int _ _ => []
  | .str _ _ => []
  | .object _ => []

def nodesOf : List Exp → List Exp
  | [] => []
  | e :: es => e.nodes ++ nodesOf es

end

/- How many operands of computations are not immediate. -/
def liftedIn
    (nodes : List Exp) : Nat :=
  (nodes.flatMap Exp.operands).countP fun e => !e.isImmediate

/- How many operands in an expression are not immediate. -/
def Exp.lifted
    (e : Exp) : Nat :=
  liftedIn e.nodes

theorem nodesOf_append
    (es es' : List Exp) :
    nodesOf (es ++ es') = nodesOf es ++ nodesOf es' := by
  induction es with
  | nil => rfl
  | cons e es ih => simp [nodesOf, ih]

theorem liftedIn_append
    (nodes nodes' : List Exp) :
    liftedIn (nodes ++ nodes') =
      liftedIn nodes + liftedIn nodes' := by
  simp [liftedIn]

theorem Exp.nodes_of_immediate
    {e : Exp}
    (hImmediate : e.isImmediate = true) :
    e.nodes = [] := by
  cases e <;> simp_all [Exp.isImmediate, Exp.nodes]

------------------------------------------------------------
-- Binders
------------------------------------------------------------

/- The binders of an operand; a computation gets one at its end. -/
def planned
    (e : Exp)
    (plan : List (Option String)) : List (Option String) :=
  if e.isImmediate then [] else plan ++ [none]

mutual

/-
  The binders that an expression needs, in the order of their
  computations.  One without a name is to get a new one.
-/
def Exp.plan : Exp → List (Option String)
  | .letIn name bound body _ =>
      bound.plan ++ some name :: body.plan
  | .apply function args _ =>
      planned function function.plan ++ planOf args
  | .eval strategy input _ =>
      planned strategy strategy.plan ++ planned input input.plan
  | .seq first second _ => first.plan ++ second.plan
  | .var _ _ _ => []
  | .int _ _ => []
  | .str _ _ => []
  | .object _ => []

def planOf : List Exp → List (Option String)
  | [] => []
  | e :: es => planned e e.plan ++ planOf es

end

/- Names in the place of binders, with the new ones in order. -/
def numbered
    (c : Nat) : List (Option String) → List String
  | [] => []
  | some name :: plan => name :: numbered c plan
  | none :: plan => freshName c :: numbered (c + 1) plan

theorem planOf_append
    (es es' : List Exp) :
    planOf (es ++ es') = planOf es ++ planOf es' := by
  induction es with
  | nil => rfl
  | cons e es ih => simp [planOf, ih]

theorem numbered_append
    (c : Nat)
    (plan plan' : List (Option String)) :
    numbered c (plan ++ plan') =
      numbered c plan ++
        numbered (c + plan.count none) plan' := by
  induction plan generalizing c with
  | nil => rfl
  | cons binder plan ih =>
      cases binder with
      | some name => simp [numbered, ih]
      | none =>
          have hNext : c + 1 + plan.count none =
              c + (plan.count none + 1) := by omega
          simp [numbered, ih, hNext]

/-
  A name that is handed out is bound once more than it is in
  the expression.
-/
theorem count_numbered
    (c k : Nat)
    (plan : List (Option String)) :
    (numbered c plan).count (freshName k) =
      plan.reduceOption.count (freshName k) +
        if c ≤ k ∧ k < c + plan.count none then 1 else 0 := by
  induction plan generalizing c with
  | nil =>
      rw [if_neg (by simp)]
      rfl
  | cons binder plan ih =>
      cases binder with
      | some name =>
          simp only [numbered, List.count_cons, ih,
            List.reduceOption_cons_of_some, beq_iff_eq,
            reduceCtorEq, if_false, Nat.add_zero]
          omega
      | none =>
          simp only [numbered, List.count_cons, ih,
            List.reduceOption_cons_of_none, beq_self_eq_true,
            if_true, beq_iff_eq]
          by_cases hFirst : k = c
          · subst hFirst
            rw [if_pos rfl, if_neg (by omega), if_pos (by omega)]
          · have hOther : freshName c ≠ freshName k := fun hSame =>
              hFirst (freshName_injective hSame).symm
            rw [if_neg hOther, Nat.add_zero]
            congr 1
            apply if_congr _ rfl rfl
            omega

theorem names_planned
    (e : Exp)
    (hNames : e.plan.reduceOption = e.binders) :
    (planned e e.plan).reduceOption = e.binders := by
  unfold planned
  by_cases hImmediate : e.isImmediate = true
  · rw [if_pos hImmediate]
    cases e <;> simp_all [Exp.isImmediate, Exp.binders]
  · rw [if_neg hImmediate]
    simp [List.reduceOption_append, hNames]

theorem count_planned
    (e : Exp)
    (hCount : e.plan.count none = liftedIn e.nodes) :
    (planned e e.plan).count none =
      liftedIn e.nodes +
        [e].countP fun e => !e.isImmediate := by
  unfold planned
  by_cases hImmediate : e.isImmediate = true
  · rw [if_pos hImmediate, Exp.nodes_of_immediate hImmediate]
    simp [hImmediate, liftedIn]
  · rw [if_neg hImmediate]
    simp [hCount, hImmediate]

mutual

/- The names that are not new are those of the expression. -/
theorem Exp.names_plan
    (e : Exp) :
    e.plan.reduceOption = e.binders := by
  cases e with
  | letIn name bound body ty =>
      simp [Exp.plan, Exp.binders, List.reduceOption_append,
        bound.names_plan, body.names_plan]
  | apply function args ty =>
      have hFunction := names_planned function function.names_plan
      simp [Exp.plan, Exp.binders, List.reduceOption_append,
        hFunction, names_planOf args]
  | eval strategy input ty =>
      have hStrategy := names_planned strategy strategy.names_plan
      have hInput := names_planned input input.names_plan
      simp [Exp.plan, Exp.binders, List.reduceOption_append,
        hStrategy, hInput]
  | seq first second ty =>
      simp [Exp.plan, Exp.binders, List.reduceOption_append,
        first.names_plan, second.names_plan]
  | var name pointer ty => rfl
  | int value ty => rfl
  | str value ty => rfl
  | object ty => rfl

theorem names_planOf
    (es : List Exp) :
    (planOf es).reduceOption = bindersOf es := by
  cases es with
  | nil => rfl
  | cons e es =>
      have hHead := names_planned e e.names_plan
      simp [planOf, bindersOf, List.reduceOption_append, hHead,
        names_planOf es]

end

mutual

/- There is a new name for each operand not immediate. -/
theorem Exp.count_plan
    (e : Exp) :
    e.plan.count none = liftedIn e.nodes := by
  cases e with
  | letIn name bound body ty =>
      simp [Exp.plan, Exp.nodes, liftedIn_append,
        bound.count_plan, body.count_plan]
  | apply function args ty =>
      have hFunction := count_planned function function.count_plan
      have hArgs := count_planOf args
      simp only [Exp.plan, Exp.nodes, liftedIn_append,
        List.count_append, hFunction, hArgs]
      simp [liftedIn, Exp.operands, List.countP_cons]
      omega
  | eval strategy input ty =>
      have hStrategy := count_planned strategy strategy.count_plan
      have hInput := count_planned input input.count_plan
      simp only [Exp.plan, Exp.nodes, liftedIn_append,
        List.count_append, hStrategy, hInput]
      simp [liftedIn, Exp.operands, List.countP_cons]
      omega
  | seq first second ty =>
      simp [Exp.plan, Exp.nodes, liftedIn_append,
        first.count_plan, second.count_plan]
  | var name pointer ty => rfl
  | int value ty => rfl
  | str value ty => rfl
  | object ty => rfl

theorem count_planOf
    (es : List Exp) :
    (planOf es).count none =
      liftedIn (nodesOf es) +
        es.countP fun e => !e.isImmediate := by
  cases es with
  | nil => rfl
  | cons e es =>
      have hHead := count_planned e e.count_plan
      have hTail := count_planOf es
      simp only [planOf, nodesOf, liftedIn_append,
        List.count_append, hHead, hTail]
      simp [List.countP_cons]
      omega

end

------------------------------------------------------------
-- Flattening
------------------------------------------------------------

/-
  An immediate operand stays as it is.  Any other becomes a
  variable of its type, by a name handed out in between.
-/
def Stays
    (c c' : Nat)
    (old new : Exp) : Prop :=
  if old.isImmediate then new = old
  else ∃ k, c ≤ k ∧ k < c' ∧
    new = .var (freshName k) none old.ty

/- A computation is the same but for operands that got names. -/
structure Mirrors
    (c c' : Nat)
    (old new : Exp) : Prop where
  kind : new.kindName = old.kindName
  ty : new.ty = old.ty
  operands : List.Forall₂ (Stays c c') old.operands new.operands

/- The computations among bindings and the result. -/
def Flat.nodes
    (f : Flat) : List Exp :=
  (f.bindings.map Binding.bound ++ [f.result]).filter Exp.isNode

def Flat.binders
    (f : Flat) : List String :=
  f.bindings.map Binding.name

/- Bindings and a result follow an expression. -/
structure Follows
    (e : Exp)
    (c c' : Nat)
    (f : Flat) : Prop where
  count : c' = c + e.plan.count none
  binders : f.binders = numbered c e.plan
  nodes : List.Forall₂ (Mirrors c c') e.nodes f.nodes

/- Bindings and operands follow operands. -/
structure OperandsFollow
    (es : List Exp)
    (c c' : Nat)
    (bindings : List Binding)
    (results : List Exp) : Prop where
  count : c' = c + (planOf es).count none
  binders :
    bindings.map Binding.name = numbered c (planOf es)
  nodes :
    List.Forall₂ (Mirrors c c') (nodesOf es)
      ((bindings.map Binding.bound).filter Exp.isNode)
  stays : List.Forall₂ (Stays c c') es results

theorem Stays.mono
    {c c' d d' : Nat}
    {old new : Exp}
    (hStays : Stays c c' old new)
    (hLow : d ≤ c)
    (hHigh : c' ≤ d') :
    Stays d d' old new := by
  unfold Stays at hStays ⊢
  split at hStays
  · next hImmediate => rwa [if_pos hImmediate]
  · next hComputes =>
      rw [if_neg hComputes]
      rcases hStays with ⟨k, hLow', hHigh', hNew⟩
      exact ⟨k, by omega, by omega, hNew⟩

theorem Mirrors.mono
    {c c' d d' : Nat}
    {old new : Exp}
    (hMirrors : Mirrors c c' old new)
    (hLow : d ≤ c)
    (hHigh : c' ≤ d') :
    Mirrors d d' old new where
  kind := hMirrors.kind
  ty := hMirrors.ty
  operands := hMirrors.operands.imp fun _ _ hStays =>
    hStays.mono hLow hHigh

theorem Mirrors.heading
    {c c' : Nat}
    {old new : Exp}
    (hMirrors : Mirrors c c' old new) :
    new.heading = old.heading := by
  simp only [Exp.heading, hMirrors.kind, hMirrors.ty,
    hMirrors.operands.length_eq]

namespace OperandsFollow

variable {es es' results results' : List Exp}
variable {bindings bindings' : List Binding}
variable {c c₁ c₂ : Nat}

/- Operands behind operands. -/
theorem append
    (hFirst : OperandsFollow es c c₁ bindings results)
    (hSecond : OperandsFollow es' c₁ c₂ bindings' results') :
    OperandsFollow (es ++ es') c c₂ (bindings ++ bindings')
      (results ++ results') := by
  have hCount := hFirst.count
  have hCount' := hSecond.count
  constructor
  case count =>
    rw [planOf_append, List.count_append]
    omega
  case binders =>
    rw [planOf_append, numbered_append, List.map_append,
      hFirst.binders, hSecond.binders, hCount]
  case nodes =>
    rw [nodesOf_append, List.map_append, List.filter_append]
    refine List.rel_append ?_ ?_
    · exact hFirst.nodes.imp fun _ _ hMirrors =>
        hMirrors.mono (by omega) (by omega)
    · exact hSecond.nodes.imp fun _ _ hMirrors =>
        hMirrors.mono (by omega) (by omega)
  case stays =>
    refine List.rel_append ?_ ?_
    · exact hFirst.stays.imp fun _ _ hStays =>
        hStays.mono (by omega) (by omega)
    · exact hSecond.stays.imp fun _ _ hStays =>
        hStays.mono (by omega) (by omega)

/- A computation behind the bindings of its operands. -/
theorem node
    (old new : Exp)
    (hOperands : OperandsFollow old.operands c c₁ bindings
      new.operands)
    (hPlan : old.plan = planOf old.operands)
    (hNodes : old.nodes = nodesOf old.operands ++ [old])
    (hNode : new.isNode = true)
    (hKind : new.kindName = old.kindName)
    (hTy : new.ty = old.ty) :
    Follows old c c₁ { bindings, result := new } := by
  constructor
  case count => rw [hPlan, hOperands.count]
  case binders => rw [hPlan, Flat.binders, hOperands.binders]
  case nodes =>
    rw [hNodes, Flat.nodes, List.filter_append]
    refine List.rel_append hOperands.nodes ?_
    rw [List.filter_cons_of_pos hNode]
    exact .cons ⟨hKind, hTy, hOperands.stays⟩ .nil

end OperandsFollow

/- A variable or a constant is no computation. -/
theorem Follows.immediate
    {e : Exp}
    (hImmediate : e.isImmediate = true)
    (c : Nat) :
    Follows e c c { bindings := [], result := e } := by
  cases e <;>
    simp_all [Exp.isImmediate] <;>
    exact ⟨rfl, rfl, .nil⟩

/- An operand stays, or it gets a name after all its bindings. -/
theorem operand_follows
    {e : Exp}
    {c c' : Nat}
    {f : Flat}
    (hFlat : Yields (Flat.operand e e.flatten) c f c')
    (hFollows :
      ∀ {c' g}, Yields e.flatten c g c' → Follows e c c' g) :
    OperandsFollow [e] c c' f.bindings [f.result] := by
  unfold Flat.operand at hFlat
  by_cases hImmediate : e.isImmediate = true
  · rw [if_pos hImmediate, yields_pure] at hFlat
    rcases hFlat with ⟨rfl, rfl⟩
    have hPlan : planOf [e] = [] := by
      simp [planOf, planned, hImmediate]
    have hStays : Stays c' c' e e := by
      rw [Stays, if_pos hImmediate]
    refine ⟨by rw [hPlan]; rfl, by rw [hPlan]; rfl, ?_,
      .cons hStays .nil⟩
    simp [nodesOf, Exp.nodes_of_immediate hImmediate]
  · rw [if_neg hImmediate] at hFlat
    simp only [yields_bind, yields_pure] at hFlat
    rcases hFlat with ⟨g, c₁, hFlat, name, c₂, hFresh, rfl, rfl⟩
    rcases Yields.unique hFresh (yields_fresh c₁) with ⟨rfl, rfl⟩
    have hInner := hFollows hFlat
    have hCount := hInner.count
    have hPlan : planOf [e] = e.plan ++ [none] := by
      simp [planOf, planned, hImmediate]
    have hStays : Stays c (c₁ + 1) e
        (.var (freshName c₁) none e.ty) := by
      rw [Stays, if_neg hImmediate]
      exact ⟨c₁, by omega, by omega, rfl⟩
    refine ⟨?_, ?_, ?_, .cons hStays .nil⟩
    · rw [hPlan, List.count_append]
      simp only [List.count_singleton_self]
      omega
    · have hBinders := hInner.binders
      rw [Flat.binders] at hBinders
      rw [hPlan, numbered_append, List.map_append, hBinders,
        ← hCount]
      rfl
    · have hNodes := hInner.nodes
      simp only [Flat.nodes] at hNodes
      simp only [nodesOf, List.append_nil, List.map_append,
        List.map_cons, List.map_nil]
      exact hNodes.imp fun _ _ hMirrors =>
        hMirrors.mono (Nat.le_refl c) (Nat.le_succ c₁)

mutual

/- Flattening keeps the order of computations and binders. -/
theorem Exp.flatten_follows
    (e : Exp)
    {c c' : Nat}
    {f : Flat}
    (hFlat : Yields e.flatten c f c') :
    Follows e c c' f := by
  cases e with
  | letIn name bound body ty =>
      simp only [Exp.flatten, yields_bind, yields_pure] at hFlat
      rcases hFlat with
        ⟨g, c₁, hBound, rest, c₂, hBody, rfl, rfl⟩
      have hFirst := bound.flatten_follows hBound
      have hRest := body.flatten_follows hBody
      have hCount := hFirst.count
      have hCount' := hRest.count
      constructor
      case count =>
        simp only [Exp.plan, List.count_append, List.count_cons]
        simp
        omega
      case binders =>
        have hBinders := hFirst.binders
        have hBinders' := hRest.binders
        simp only [Flat.binders] at hBinders hBinders' ⊢
        simp only [Exp.plan, numbered_append, numbered,
          List.map_append, List.map_cons, hBinders, hBinders',
          hCount]
      case nodes =>
        have hNodes := hFirst.nodes.imp fun _ _ hMirrors =>
          hMirrors.mono (Nat.le_refl c)
            (show c₁ ≤ c' by omega)
        have hNodes' := hRest.nodes.imp fun _ _ hMirrors =>
          hMirrors.mono (show c ≤ c₁ by omega)
            (Nat.le_refl c')
        have hSplit : Flat.nodes
            { bindings :=
                g.bindings ++ { name, bound := g.result } ::
                  rest.bindings
              result := rest.result } =
            g.nodes ++ rest.nodes := by
          simp [Flat.nodes, ← List.filter_append]
        rw [hSplit]
        exact List.rel_append hNodes hNodes'
  | apply function args ty =>
      simp only [Exp.flatten, yields_bind, yields_pure] at hFlat
      rcases hFlat with
        ⟨g, c₁, hFunction, ⟨bindings, results⟩, c₂, hArgs, rfl,
          rfl⟩
      have hOperands :=
        (operand_follows hFunction fun h =>
          function.flatten_follows h).append
          (flattenArgs_follows args hArgs)
      exact OperandsFollow.node (.apply function args ty)
        (.apply g.result results ty) hOperands rfl rfl rfl rfl rfl
  | eval strategy input ty =>
      simp only [Exp.flatten, yields_bind, yields_pure] at hFlat
      rcases hFlat with
        ⟨s, c₁, hStrategy, i, c₂, hInput, rfl, rfl⟩
      have hOperands :=
        (operand_follows hStrategy fun h =>
          strategy.flatten_follows h).append
          (operand_follows hInput fun h =>
            input.flatten_follows h)
      exact OperandsFollow.node (.eval strategy input ty)
        (.eval s.result i.result ty) hOperands
        (by simp [Exp.plan, Exp.operands, planOf])
        (by simp [Exp.nodes, Exp.operands, nodesOf]) rfl rfl rfl
  | seq first second ty => simp [Exp.flatten] at hFlat
  | var name pointer ty =>
      simp only [Exp.flatten, yields_pure] at hFlat
      rcases hFlat with ⟨rfl, rfl⟩
      exact .immediate rfl c'
  | int value ty =>
      simp only [Exp.flatten, yields_pure] at hFlat
      rcases hFlat with ⟨rfl, rfl⟩
      exact .immediate rfl c'
  | str value ty =>
      simp only [Exp.flatten, yields_pure] at hFlat
      rcases hFlat with ⟨rfl, rfl⟩
      exact .immediate rfl c'
  | object ty =>
      simp only [Exp.flatten, yields_pure] at hFlat
      rcases hFlat with ⟨rfl, rfl⟩
      exact .immediate rfl c'

theorem flattenArgs_follows
    (es : List Exp)
    {c c' : Nat}
    {bindings : List Binding}
    {results : List Exp}
    (hFlat : Yields (flattenArgs es) c (bindings, results) c') :
    OperandsFollow es c c' bindings results := by
  cases es with
  | nil =>
      simp only [flattenArgs, yields_pure, Prod.mk.injEq] at hFlat
      rcases hFlat with ⟨⟨rfl, rfl⟩, rfl⟩
      exact ⟨rfl, rfl, .nil, .nil⟩
  | cons e es =>
      simp only [flattenArgs, yields_bind, yields_pure,
        Prod.mk.injEq] at hFlat
      rcases hFlat with
        ⟨g, c₁, hHead, ⟨bindings', results'⟩, c₂, hTail,
          ⟨rfl, rfl⟩, rfl⟩
      exact (operand_follows hHead fun h =>
        e.flatten_follows h).append (flattenArgs_follows es hTail)

end

------------------------------------------------------------
-- Normal Forms
------------------------------------------------------------

/- The bindings in front of an expression, and what is behind. -/
def Exp.spine : Exp → Flat
  | .letIn name bound body _ =>
      { bindings := { name, bound } :: body.spine.bindings
        result := body.spine.result }
  | e => { bindings := [], result := e }

/- Nested bindings are found along the spine. -/
theorem Flat.spine_nest
    {f : Flat}
    (hSteps : f.InSteps) :
    f.nest.spine = f := by
  rcases f with ⟨bindings, result⟩
  induction bindings with
  | nil =>
      have hCompound := hSteps.result.compound
      cases result with
      | letIn name bound body ty => cases hCompound
      | _ => rfl
  | cons b bs ih =>
      have hTail := ih hSteps.tail
      change Flat.mk (b :: (Flat.mk bs result).nest.spine.bindings)
        (Flat.mk bs result).nest.spine.result = _
      rw [hTail]

/-
  The normal form of an expression without sequences has its
  computations on the spine, each once and in order, and every
  immediate operand is where it was.  The binders on the spine
  are those of the expression, and in their places between
  them the new names in order, one for each operand that is
  not immediate.  So a new name is bound once if the
  expression does not bind it too.
-/
theorem Exp.normalize_order
    (e : Exp)
    (c : Nat)
    (hSeqFree : e.isSeqFree = true) :
    ∃ r, Yields e.normalize c r (c + e.lifted) ∧
      r.spine.nodes.map Exp.heading = e.nodes.map Exp.heading ∧
      List.Forall₂
        (fun old new => List.Forall₂ (Stays c (c + e.lifted))
          old.operands new.operands)
        e.nodes r.spine.nodes ∧
      r.spine.binders = numbered c e.plan ∧
      e.plan.reduceOption = e.binders ∧
      e.plan.count none = e.lifted ∧
      ∀ k, c ≤ k → k < c + e.lifted →
        r.spine.binders.count (freshName k) =
          e.binders.count (freshName k) + 1 := by
  rcases e.exists_flatten c hSeqFree with ⟨f, c', hFlat⟩
  have hFollows := e.flatten_follows hFlat
  have hEnd : c' = c + e.lifted := by
    rw [hFollows.count, e.count_plan, Exp.lifted]
  subst hEnd
  refine ⟨f.nest, ?_, ?_, ?_, ?_, e.names_plan, e.count_plan, ?_⟩
  · exact yields_bind.mpr ⟨f, _, hFlat,
      yields_pure.mpr ⟨rfl, rfl⟩⟩
  all_goals rw [Flat.spine_nest (e.flatten_inSteps hFlat)]
  · symm
    rw [← List.forall₂_eq_eq_eq, List.forall₂_map_left_iff,
      List.forall₂_map_right_iff]
    exact hFollows.nodes.imp fun _ _ hMirrors =>
      hMirrors.heading.symm
  · exact hFollows.nodes.imp fun _ _ hMirrors =>
      hMirrors.operands
  · exact hFollows.binders
  · intro k hLow hHigh
    rw [hFollows.binders, count_numbered, e.names_plan,
      e.count_plan, if_pos ⟨hLow, hHigh⟩]

/- New names around a binding of the expression. -/
theorem bindingInOperand_order :
    bindingInOperand.isSeqFree = true ∧
      ∃ r, Yields bindingInOperand.normalize 3 r 5 ∧
        r.spine.nodes.map Exp.kindName =
          ["apply", "eval", "eval", "eval"] ∧
        r.spine.binders = ["var_3", "y", "var_4"] := by
  rcases Exp.normalize_order bindingInOperand 3 (by decide) with
    ⟨r, hYields, hHeadings, -, hBinders, -, -, -⟩
  have hKinds := congrArg (List.map Prod.fst) hHeadings
  rw [List.map_map, List.map_map] at hKinds
  exact ⟨by decide, r, hYields, hKinds, hBinders⟩

/-
  A binder like the names handed out, which is used later on:
  `let var_0 = s; let y = eval(eval(s, t), u); var_0`.
-/
def numberedBinder : Exp :=
  let any := ValueType.base .any
  .letIn "var_0" (.var "s" none any)
    (.letIn "y"
      (.eval
        (.eval (.var "s" none any) (.var "t" none any) any)
        (.var "u" none any) any)
      (.var "var_0" none any) any) any

/- The new name is bound again, and hides that binder. -/
theorem numberedBinder_bound_twice :
    numberedBinder.isSeqFree = true ∧
      numberedBinder.lifted = 1 ∧
      ∃ r, Yields numberedBinder.normalize 0 r 1 ∧
        r.spine.binders = ["var_0", "var_0", "y"] ∧
        r.spine.binders.count (freshName 0) = 2 :=
  ⟨by decide, by decide, _, rfl, rfl, by decide⟩

end Stratagem

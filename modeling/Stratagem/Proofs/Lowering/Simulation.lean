import Stratagem.Proofs.Lowering.Machine

/-
  Code does what its expression says.

  The code of an expression leaves the value of the expression
  on the stack and makes the calls that the expression makes.
  New locals are behind the old ones, so those stay.

  Key definitions include:
    * `Machine.Holds`
    * `Shows`

  Main declarations:
    * `runActions_coerce`
    * `ImmediateCode.runs`
    * `CompoundCode.runs`
    * `SpineCode.runs`
    * `Context.assemble_simulates`
-/

namespace Stratagem

open Jvm

universe u

variable {V : Type u} {w : World V}

------------------------------------------------------------
-- Runs
------------------------------------------------------------

theorem recorded_bind
    {α β : Type u}
    {x : Recorded V α}
    {f : α → Recorded V β}
    {trace trace' : List (Event V)}
    {a : α}
    (hFirst : x trace = some (a, trace')) :
    (x >>= f) trace = f a trace' := by
  change (x trace).bind _ = _
  rw [hFirst]
  rfl

namespace Machine

variable {s s' : Machine V} {as bs : List Action} {v : V}

/- One more value on the stack, and the calls until then. -/
def after
    (s : Machine V)
    (v : V)
    (trace : List (Event V)) : Machine V :=
  { s with stack := v :: s.stack, trace }

theorem runActions_append
    (hFirst : runActions w as s = some s') :
    runActions w (as ++ bs) s = runActions w bs s' := by
  unfold runActions at hFirst ⊢
  rw [List.foldlM_append, hFirst]
  rfl

theorem runActions_cons
    {a : Action}
    (hFirst : a.step w s = some s') :
    runActions w (a :: as) s = runActions w as s' := by
  unfold runActions
  rw [List.foldlM_cons, hFirst]
  rfl

theorem runActions_one
    {a : Action} :
    runActions w [a] s = a.step w s := by
  unfold runActions
  rw [List.foldlM_cons]
  cases a.step w s <;> rfl

/- Instructions do what their actions do. -/
theorem run_eq_runActions
    {p : ConstantPool}
    {is : List Instruction}
    (hActions : is.map (Instruction.action? p) = as.map some) :
    run w p is s = runActions w as s := by
  induction is generalizing as s with
  | nil =>
      cases as with
      | nil => rfl
      | cons a as => cases hActions
  | cons i is ih =>
      cases as with
      | nil => cases hActions
      | cons a as =>
          rcases List.cons.inj hActions with ⟨hOne, hRest⟩
          unfold run runActions at ih ⊢
          rw [List.foldlM_cons, List.foldlM_cons, hOne]
          change (a.step w s).bind _ = (a.step w s).bind _
          cases a.step w s with
          | none => rfl
          | some s₁ => exact ih hRest

end Machine

------------------------------------------------------------
-- Conversions
------------------------------------------------------------

section Conversions

open Machine

variable {s : Machine V} {v : V} {trace : List (Event V)}
variable {as : List Action}

theorem mem_wrapped
    {p : Primitive}
    {name : String}
    (hClass : p.boxClass? = some name) :
    p ∈ wrapped := by
  cases p <;> first | decide | cases hClass

theorem callee?_wrapping
    {p : Primitive}
    {name : String}
    (hClass : p.boxClass? = some name) :
    (MemberRef.wrapping p name).callee? .static = some .wrap := by
  have hWraps : (MemberRef.wrapping p name).isWrapping = true := by
    unfold MemberRef.isWrapping
    rw [Bool.and_eq_true, List.any_eq_true]
    refine ⟨rfl, p, mem_wrapped hClass, ?_⟩
    simp [MemberRef.wrapping, MemberRef.ofCall, hClass]
  simp [MemberRef.callee?, hWraps]

theorem callee?_unwrapping
    {p : Primitive}
    {name : String}
    (hClass : p.boxClass? = some name) :
    (MemberRef.unwrapping p name).callee? .virtual =
      some .unwrap := by
  have hUnwraps :
      (MemberRef.unwrapping p name).isUnwrapping = true := by
    unfold MemberRef.isUnwrapping
    rw [List.any_eq_true]
    refine ⟨p, mem_wrapped hClass, ?_⟩
    simp [MemberRef.unwrapping, MemberRef.ofCall, hClass]
  simp [MemberRef.callee?, hUnwraps]

theorem runActions_cast
    (t : Ty) :
    runActions w (castActions t) (s.after v trace) =
      some (s.after v trace) := by
  unfold castActions
  split
  case h_1 name =>
      split
      case isTrue => rfl
      case isFalse => rfl
  case h_2 => rfl

theorem runActions_box
    (t : Ty) :
    runActions w (boxActions t) (s.after v trace) =
      some (s.after v trace) := by
  cases t with
  | primitive p =>
      cases hClass : p.boxClass? with
      | none => simp [boxActions, hClass, runActions]
      | some name =>
          simp only [boxActions, hClass, runActions_one,
            Action.step, Machine.invoke, callee?_wrapping hClass]
          rfl
  | _ => rfl

theorem runActions_unbox
    (t : Ty) :
    runActions w (unboxActions t) (s.after v trace) =
      some (s.after v trace) := by
  cases t with
  | primitive p =>
      cases hClass : p.boxClass? with
      | none => simp [unboxActions, hClass, runActions]
      | some name =>
          have hCast : (Action.checkcast name).step w
              (s.after v trace) = some (s.after v trace) := rfl
          simp only [unboxActions, hClass, runActions_cons hCast,
            runActions_one, Action.step, Machine.invoke,
            callee?_unwrapping hClass]
          rfl
  | array t => exact runActions_cast (.array t)
  | object c => exact runActions_cast (.object c)
  | «variable» x => exact runActions_cast (.variable x)
  | argument a => exact runActions_cast (.argument a)

/- A conversion leaves the value as it is. -/
theorem runActions_coerce
    {source target : Ty}
    (hCode : Coerces source target as) :
    runActions w as (s.after v trace) =
      some (s.after v trace) := by
  cases hCode with
  | same => rfl
  | cast => exact runActions_cast target
  | box =>
      rw [runActions_append (runActions_box source)]
      exact runActions_cast target
  | unbox => exact runActions_unbox target

end Conversions

------------------------------------------------------------
-- Locals
------------------------------------------------------------

/- A local of a type in a list of types holds a value. -/
def Machine.Holds
    (s : Machine V)
    (ts : List Ty)
    (l : Local)
    (v : V) : Prop :=
  ∃ t, ts[l.index]? = some t ∧
    s.read? (Family.ofTy t).slots (Ty.slotOf ts l.index) = some v

/- The names in scope and the context are where code looks. -/
structure Shows
    (ts : List Ty)
    (env : Environment)
    (ctx : Local)
    (scope : Scope V)
    (context : V)
    (s : Machine V) : Prop where
  unknown : ∀ name, env.get? name = none → scope name = none
  known : ∀ name l, env.get? name = some l →
    ∃ v, scope name = some v ∧ s.Holds ts l v
  inContext : s.Holds ts ctx context

/- Values take no more slots than their locals have. -/
theorem Family.slots_ofTy_le
    (t : Ty) :
    (Family.ofTy t).slots ≤ t.width := by
  cases t with
  | primitive p => cases p <;> decide
  | _ => exact Nat.le_refl 1

namespace Machine

variable {s s' : Machine V} {ts : List Ty} {l : Local} {v : V}

/- What is read depends on the slots that are read only. -/
theorem read?_congr
    {width slot : Nat}
    (hCells : ∀ k, k < slot + width → s'.cells k = s.cells k)
    (hRead : s.read? width slot = some v) :
    s'.read? width slot = some v := by
  unfold read? at hRead ⊢
  split at hRead
  case h_1 _ hFirst =>
      rw [hCells slot (Nat.lt_succ_self slot), hFirst]
      exact hRead
  case h_2 _ hFirst hSecond =>
      rw [hCells slot (by omega), hCells (slot + 1) (by omega),
        hFirst, hSecond]
      exact hRead
  case h_3 => cases hRead

theorem Holds.congr
    (hCells : ∀ k, k < Ty.widths ts → s'.cells k = s.cells k)
    (hHolds : s.Holds ts l v) :
    s'.Holds ts l v := by
  rcases hHolds with ⟨t, hType, hRead⟩
  refine ⟨t, hType, read?_congr ?_ hRead⟩
  intro k hk
  have hWidth := Family.slots_ofTy_le t
  have hEnd := Ty.slotOf_add_width_le_widths hType
  exact hCells k (by omega)

/- More locals do not matter. -/
theorem Holds.append
    (us : List Ty)
    (hHolds : s.Holds ts l v) :
    s.Holds (ts ++ us) l v := by
  rcases hHolds with ⟨t, hType, hRead⟩
  rcases List.getElem?_eq_some_iff.mp hType with ⟨hLt, _⟩
  refine ⟨t, ?_, ?_⟩
  · rw [List.getElem?_append_left hLt]
    exact hType
  · rw [Ty.slotOf_append _ (Nat.le_of_lt hLt)]
    exact hRead

theorem read?_write
    (s : Machine V)
    (f : Family)
    (slot : Nat)
    (v : V) :
    (s.write f.slots slot v).read? f.slots slot = some v := by
  cases f <;> simp [read?, write, Family.slots]

theorem cells_write
    (s : Machine V)
    {width slot k : Nat}
    (v : V)
    (hBelow : k < slot) :
    (s.write width slot v).cells k = s.cells k := by
  have hNe : k ≠ slot := Nat.ne_of_lt hBelow
  have hNext : k ≠ slot + 1 := by omega
  simp [write, hNe, hNext]

end Machine

namespace Shows

variable {ts : List Ty} {env : Environment} {ctx : Local}
variable {scope : Scope V} {context : V} {s s' : Machine V}

theorem congr
    (hShows : Shows ts env ctx scope context s)
    (hCells : s'.cells = s.cells) :
    Shows ts env ctx scope context s' where
  unknown := hShows.unknown
  known := by
    intro name l hName
    rcases hShows.known name l hName with ⟨v, hScope, hHolds⟩
    exact ⟨v, hScope, hHolds.congr fun k _ => by rw [hCells]⟩
  inContext :=
    hShows.inContext.congr fun k _ => by rw [hCells]

/- A name for a new local, which was stored to. -/
theorem bind
    (hShows : Shows ts env ctx scope context s)
    (name : String)
    (t : Ty)
    (v : V) :
    Shows (ts ++ [t]) (env.bind name ⟨ts.length⟩) ctx
      (scope.bind name v) context
      (s.write (Family.ofTy t).slots (Ty.widths ts) v) := by
  have hOld : ∀ {l : Local} {x : V}, s.Holds ts l x →
      (s.write (Family.ofTy t).slots (Ty.widths ts) v).Holds
        (ts ++ [t]) l x := by
    intro l x hHolds
    exact (hHolds.congr fun k hk => s.cells_write v hk).append [t]
  have hSame : (env.bind name ⟨ts.length⟩).get? name =
      some ⟨ts.length⟩ := by
    simp [Environment.bind, Environment.get?]
  have hOther : ∀ x, x ≠ name →
      (env.bind name ⟨ts.length⟩).get? x = env.get? x := by
    intro x hNe
    have hBeq : (x == name) = false := beq_false_of_ne hNe
    simp [Environment.bind, Environment.get?, List.lookup_cons,
      hBeq]
  refine ⟨?_, ?_, hOld hShows.inContext⟩
  · intro x hName
    by_cases hx : x = name
    · rw [hx, hSame] at hName
      cases hName
    · rw [Scope.bind_of_ne _ _ hx]
      rw [hOther x hx] at hName
      exact hShows.unknown x hName
  · intro x l hName
    by_cases hx : x = name
    · rw [hx, hSame] at hName
      cases hName
      refine ⟨v, by rw [hx, Scope.bind_self], t, by simp, ?_⟩
      rw [Ty.slotOf_append _ (Nat.le_refl _), Ty.slotOf_length]
      exact s.read?_write _ _ v
    · rw [hOther x hx] at hName
      rcases hShows.known x l hName with ⟨y, hScope, hHolds⟩
      exact ⟨y, by rw [Scope.bind_of_ne _ _ hx, hScope],
        hOld hHolds⟩

end Shows

------------------------------------------------------------
-- Expressions
------------------------------------------------------------

/- The constant of an integer is the one of its lowered type. -/
theorem literalOf_lower
    {c : Context}
    {ty : ValueType}
    {t : Ty}
    (n : Int32)
    (hType : c.lower ty = .ok t) :
    literalOf n t = .ofInt n ty := by
  rcases Context.lower_cases hType with
    ⟨b, rfl, hBase⟩ | ⟨hOther, o, rfl⟩
  · cases b <;> cases hBase <;> rfl
  · cases ty with
    | base b => exact absurd rfl (hOther b)
    | _ => rfl

theorem arity?_getInstance
    {owner : String}
    (hCall : IsCallText (MemberRef.getInstance owner).descriptor) :
    (MemberRef.getInstance owner).arity? = some 0 := by
  rcases hCall.reads with ⟨params, result, hReads⟩
  have hText : MethodSig.descriptor
      { result := .ofClass owner, params := [] } =
        .ok (MemberRef.getInstance owner).descriptor := by
    rw [MethodSig.descriptor, descriptor_ofClass]
    change Except.ok _ = Except.ok _
    congr 1
  have hLength := MethodSig.length_of_parse (by simp) hText hReads
  rw [MemberRef.arity?, hReads]
  exact congrArg some hLength

/- Arguments that are not missing are supplied by a call. -/
theorem World.supply_eq_call
    {f : V}
    {vs : List V}
    (hSome : vs ≠ []) :
    w.supply f vs = w.call (.apply f vs) := by
  cases vs with
  | nil => exact absurd rfl hSome
  | cons v vs => rfl

/- A strategy is called with the values above it. -/
theorem Machine.supply_args
    (s : Machine V)
    (f : V)
    (vs : List V)
    (trace : List (Event V)) :
    Machine.supply w vs.length
        { s with stack := vs.reverse ++ f :: s.stack, trace } =
      some (s.after (w.answer trace (.apply f vs))
        (trace ++ [.apply f vs])) := by
  have hLength : vs.reverse.length = vs.length := by simp
  unfold Machine.supply
  rw [List.drop_left' hLength, List.take_left' hLength,
    List.reverse_reverse]
  rfl

theorem callee?_apply
    {c : Context}
    {supplied residual : Nat}
    {d : String}
    (owner : String)
    (hText : c.applyDescriptor supplied residual = .ok d)
    (hCall : IsCallText d) :
    (MemberRef.ofCall .interface owner "apply" d).callee?
      .interface = some (.apply supplied) := by
  rcases hCall.reads with ⟨params, result, hReads⟩
  simp only [Context.applyDescriptor, ok_bind, ofTypeError_eq_ok]
    at hText
  rcases hText with ⟨interface, -, hText⟩
  have hLegible : ∀ t ∈ List.replicate supplied Known.object,
      t.Legible := by
    intro t hMem
    rw [List.eq_of_mem_replicate hMem]
    exact Ty.legible_object
  have hLength := MethodSig.length_of_parse hLegible hText hReads
  rw [List.length_replicate] at hLength
  simp [MemberRef.callee?, MemberRef.ofCall, MemberRef.arity?,
    hReads, Except.toOption, hLength]

theorem callee?_eval
    {owner d : String}
    (hText : (Context.bridgeSignature 0).descriptor = .ok d) :
    (MemberRef.ofCall .interface owner "eval" d).callee?
      .interface = some .eval := by
  have hArity :
      (MemberRef.ofCall .interface owner "eval" d).arity? =
        some 2 := by
    cases hText
    unfold MemberRef.arity? MemberRef.ofCall
    dsimp only
    rfl
  simp [MemberRef.callee?, hArity]
  simp [MemberRef.ofCall]

section Expressions

open Machine

variable {c : Context} {ts : List Ty} {env : Environment}
variable {ctx : Local} {scope : Scope V} {context : V}
variable {s : Machine V} {e : Exp} {as : List Action} {t : Ty}
variable (w) (supply : V → List V → Recorded V V)

/- The code of a variable or a constant pushes its value. -/
theorem ImmediateCode.runs
    (hCode : ImmediateCode c ts env e as t)
    (hShows : Shows ts env ctx scope context s) :
    ∃ v trace,
      e.run c w supply context scope s.trace = some (v, trace) ∧
        runActions w as s = some (s.after v trace) := by
  cases hCode with
  | bound hName hLocal =>
      rcases hShows.known _ _ hName with ⟨v, hScope, u, hu, hRead⟩
      rw [hLocal] at hu
      cases hu
      refine ⟨v, s.trace, ?_, ?_⟩
      · simp only [Exp.run, hScope]
        rfl
      · simp only [runActions_one, Action.step, hRead,
          Option.map_some]
        rfl
  | @global name pointer ty d hName hDecl hCall =>
      have hScope := hShows.unknown _ hName
      refine ⟨w.answer s.trace
        (.getInstance (d.name.internalName "Strategy")),
        s.trace ++ [.getInstance (d.name.internalName "Strategy")],
        ?_, ?_⟩
      · simp only [Exp.run, hScope, hDecl]
        rfl
      · have hCallee : (MemberRef.getInstance
            (d.name.internalName "Strategy")).callee? .static =
            some .getInstance := by
          have hArity := arity?_getInstance hCall
          simp [MemberRef.callee?, MemberRef.isWrapping, hArity]
          simp [MemberRef.getInstance, MemberRef.ofCall]
        simp only [runActions_one, Action.step, Machine.invoke,
          hCallee]
        rfl
  | @int n ty u hType =>
      refine ⟨_, _, rfl, ?_⟩
      rw [← literalOf_lower n hType]
      have hPush : (Action.push (.int n)).step w s =
          some (s.push (w.constant (.int n))) := rfl
      have hBoxed : runActions w
          (.push (.int n) :: boxActions (.primitive .int)) s =
            some (s.after (w.constant (.int n)) s.trace) := by
        rw [runActions_cons hPush]
        exact runActions_box _
      cases u with
      | primitive p => rfl
      | _ => exact hBoxed
  | @object ty offset =>
      have hNew : (Action.new offset "java/lang/Object").step w s =
          some (s.call w (.create "java/lang/Object")) := rfl
      refine ⟨_, _, rfl, ?_⟩
      rw [runActions_cons hNew]
      rfl
  | str => exact ⟨_, _, rfl, rfl⟩

/- The code of operands pushes their values in order. -/
theorem ArgsCode.run
    {es : List Exp}
    (hCode : ArgsCode c ts env es as)
    (hShows : Shows ts env ctx scope context s) :
    ∃ vs trace,
      runAll c w supply context scope es s.trace =
        some (vs, trace) ∧
        vs.length = es.length ∧
        runActions w as s =
          some { s with stack := vs.reverse ++ s.stack, trace } := by
  induction hCode generalizing s with
  | nil => exact ⟨[], s.trace, rfl, rfl, rfl⟩
  | @cons e es as bs t hFirst _ ih =>
      rcases hFirst.runs w supply hShows with
        ⟨v, trace₁, hValue, hRun⟩
      have hNext : Shows ts env ctx scope context
          (s.after v trace₁) :=
        hShows.congr rfl
      rcases ih hNext with ⟨vs, trace, hValues, hLength, hMore⟩
      refine ⟨v :: vs, trace, ?_, by simp [hLength], ?_⟩
      · rw [runAll, recorded_bind hValue]
        exact recorded_bind hValues
      · rw [List.append_assoc, runActions_append hRun,
          runActions_append (runActions_box t), hMore]
        simp [after]

omit supply in
variable {w} in
/- The code of a computation pushes its value. -/
theorem CompoundCode.runs
    (hCode : CompoundCode c ts env ctx e as t)
    (hShows : Shows ts env ctx scope context s) :
    ∃ v trace,
      e.run c w w.supply context scope s.trace =
        some (v, trace) ∧
        runActions w as s = some (s.after v trace) := by
  cases hCode with
  | immediate hCode => exact hCode.runs w w.supply hShows
  | applyNone hFunction =>
      rcases hFunction.runs w w.supply hShows with
        ⟨v, trace, hValue, hRun⟩
      refine ⟨v, trace, ?_, hRun⟩
      rw [Exp.run, recorded_bind hValue]
      rfl
  | @apply function args ty strategy rest as bs cs t target result
        owner d hSome hFunction _ hCoerce hArgs _ hText hCall _ =>
      rcases hFunction.runs w w.supply hShows with
        ⟨f, trace₁, hValue, hRun⟩
      have hNext : Shows ts env ctx scope context
          (s.after f trace₁) :=
        hShows.congr rfl
      rcases hArgs.run w w.supply hNext with
        ⟨vs, trace₂, hValues, hLength, hMore⟩
      have hSomeValue : vs ≠ [] := by
        intro hNil
        rw [hNil] at hLength
        exact hSome (List.length_eq_zero_iff.mp hLength.symm)
      have hCallee := callee?_apply owner hText hCall
      rw [← hLength] at hCallee
      refine ⟨w.answer trace₂ (.apply f vs),
        trace₂ ++ [.apply f vs], ?_, ?_⟩
      · rw [Exp.run, recorded_bind hValue]
        refine (recorded_bind hValues).trans ?_
        rw [World.supply_eq_call hSomeValue]
        rfl
      · rw [List.append_assoc, List.append_assoc,
          runActions_append hRun,
          runActions_append (runActions_coerce hCoerce),
          runActions_append hMore, runActions_one]
        simp only [Action.step, Machine.invoke, hCallee]
        exact supply_args s f vs trace₂
  | @eval strategy input ty st as bs cs t target contextTy inputTy
        result owner d _ hStrategy _ hCoerce hContext hInput _
        hText _ =>
      rcases hStrategy.runs w w.supply hShows with
        ⟨f, trace₁, hValue, hRun⟩
      rcases hShows.inContext with ⟨u, hu, hRead⟩
      rw [hContext] at hu
      cases hu
      have hLoad : (Action.load (.ofTy contextTy)
          (Ty.slotOf ts ctx.index)).step w (s.after f trace₁) =
            some ((s.after f trace₁).after context trace₁) := by
        have hSame : (s.after f trace₁).read?
            (Family.ofTy contextTy).slots
            (Ty.slotOf ts ctx.index) = some context :=
          hRead
        simp only [Action.step, hSame]
        rfl
      have hNext : Shows ts env ctx scope context
          ((s.after f trace₁).after context trace₁) :=
        hShows.congr rfl
      rcases hInput.runs w w.supply hNext with
        ⟨v, trace₂, hInputValue, hInputRun⟩
      let event := Event.eval f context v
      let answer := w.answer trace₂ event
      have hCall : (Action.invoke .interface
          (.ofCall .interface owner "eval" d)).step w
            ((((s.after f trace₁).after context trace₁).after v
              trace₂)) =
          some (s.after answer (trace₂ ++ [event])) := by
        simp only [Action.step, Machine.invoke,
          callee?_eval hText]
        rfl
      refine ⟨answer, trace₂ ++ [event], ?_, ?_⟩
      · rw [Exp.run, recorded_bind hValue]
        exact recorded_bind hInputValue
      · simp only [List.append_assoc]
        rw [runActions_append hRun,
          runActions_append (runActions_coerce hCoerce),
          List.singleton_append, runActions_cons hLoad,
          runActions_append hInputRun,
          runActions_append (runActions_box inputTy),
          List.singleton_append, runActions_cons hCall]
        exact runActions_unbox _

omit supply in
variable {w} in
/- The code of bindings pushes the value behind them. -/
theorem SpineCode.runs
    {us : List Ty}
    (hCode : SpineCode c ctx ts env e as us t)
    (hShows : Shows ts env ctx scope context s) :
    ∃ v s',
      e.run c w w.supply context scope s.trace =
        some (v, s'.trace) ∧
        runActions w as s = some s' ∧
        s'.stack = v :: s.stack ∧
        ∀ k, k < Ty.widths ts → s'.cells k = s.cells k := by
  induction hCode generalizing scope s with
  | last hCode =>
      rcases hCode.runs hShows with ⟨v, trace, hValue, hRun⟩
      exact ⟨v, s.after v trace, hValue, hRun, rfl,
        fun _ _ => rfl⟩
  | @letIn ts us env name bound body ty as bs cs t source result _
        hBound hCoerce _ ih =>
      rcases hBound.runs (w := w) hShows with
        ⟨x, trace, hValue, hRun⟩
      have hStore : (Action.store (.ofTy t) (Ty.widths ts)).step w
          (s.after x trace) = some ({ s with trace }.write
            (Family.ofTy t).slots (Ty.widths ts) x) := rfl
      have hBody := Shows.bind (s := { s with trace })
        (hShows.congr rfl) name t x
      rcases ih hBody with ⟨v, s', hRest, hMore, hStack, hCells⟩
      refine ⟨v, s', ?_, ?_, hStack, ?_⟩
      · rw [Exp.run, recorded_bind hValue]
        exact hRest
      · simp only [List.append_assoc]
        rw [runActions_append hRun,
          runActions_append (runActions_coerce hCoerce),
          List.singleton_append, runActions_cons hStore]
        exact hMore
      · intro k hk
        have hInside : k < Ty.widths (ts ++ [t]) := by
          rw [Ty.widths_append]
          omega
        rw [hCells k hInside, cells_write _ _ hk]

end Expressions

------------------------------------------------------------
-- Methods
------------------------------------------------------------

/- A local of a draft holds a value. -/
def MethodDraft.LocalHolds
    (m : MethodDraft)
    (s : Machine V)
    (l : Local)
    (v : V) : Prop :=
  ∃ x, m.locals[l.index]? = some x ∧
    s.read? (Family.ofTy x.ty).slots x.slot = some v

theorem MethodDraft.LocalHolds.holds
    {m : MethodDraft}
    {s : Machine V}
    {l : Local}
    {v : V}
    (hSound : m.Sound)
    (hLocal : m.LocalHolds s l v) :
    s.Holds m.types l v := by
  rcases hLocal with ⟨x, hx, hRead⟩
  refine ⟨x.ty, ?_, ?_⟩
  · rw [Sound.types_getElem?, hx]
    rfl
  · rw [← hSound.placed _ _ hx]
    exact hRead

/-
  Let a method be written by any steps, and then an expression.
  Let the names in scope mean locals of the method, and let
  these and the context hold any values.  Then the code that
  was written for the expression leaves one value on the stack.
  It is the value of the expression, the calls are the same in
  the same order, and no slot of an older local changes.  All
  this stays so while the constant pool grows.
-/
theorem Context.assemble_simulates
    (w : World V)
    (c : Context)
    {d : ClassDraft}
    {access : UInt16}
    {name : String}
    {signature : MethodSig}
    {paramNames : List String}
    {m₀ m' : MethodDraft}
    (steps : List Step)
    {e : Exp}
    {env : Environment}
    {ctx : Local}
    {t : Ty}
    (values : Local → V)
    (s : Machine V)
    (hPool : d.pool.Sound)
    (hMethod : d.method access name signature paramNames = .ok m₀)
    (hEnv : ∀ x l, env.get? x = some l →
      (Step.runAll steps m₀).LocalHolds s l (values l))
    (hCtx : (Step.runAll steps m₀).LocalHolds s ctx (values ctx))
    (hAssemble : Gives (c.assemble e env ctx)
      (Step.runAll steps m₀) t m') :
    ∃ is v s',
      m'.lines.toList = (Step.runAll steps m₀).lines.toList ++
        is.map Line.instruction ∧
      e.run c w w.supply (values ctx)
        (fun x => (env.get? x).map values) s.trace =
          some (v, s'.trace) ∧
      (∀ p, m'.pool.Within p → Machine.run w p is s = some s') ∧
      s'.stack = v :: s.stack ∧
      ∀ k, k < (Step.runAll steps m₀).slots.size →
        s'.cells k = s.cells k := by
  have hSound := Step.sound_runAll steps
    (ClassDraft.sound_method hPool hMethod)
  generalize Step.runAll steps m₀ = m at *
  have hContext := hCtx.holds hSound
  rcases hContext with ⟨context, hType, hRead⟩
  rcases assemble_code hSound hType hAssemble with
    ⟨as, us, hCode, hWrote⟩
  have hShows : Shows m.types env ctx
      (fun x => (env.get? x).map values) (values ctx) s := by
    refine ⟨?_, ?_, hCtx.holds hSound⟩
    · intro x hName
      rw [hName]
      rfl
    · intro x l hName
      exact ⟨values l, by rw [hName]; rfl,
        (hEnv x l hName).holds hSound⟩
  rcases hCode.runs hShows with ⟨v, s', hValue, hRun, hStack, hCells⟩
  rcases hWrote.1.code with ⟨is, hLines, -, -, hActions⟩
  refine ⟨is, v, s', hLines, hValue, ?_, hStack, ?_⟩
  · intro p hWithin
    rw [Machine.run_eq_runActions
      (map_action?_within hWithin hActions)]
    exact hRun
  · rw [hSound.size]
    exact hCells

------------------------------------------------------------
-- A Small Method
------------------------------------------------------------

/- A class whose methods need no constants. -/
def smallClass : ClassDraft :=
  { version := 52
    access := 1
    name := "T"
    pool := {}
    thisClass := 1
    superClass := 3 }

/- A context and a number, or a context and a strategy. -/
def smallSignature
    (t : Ty) : MethodSig :=
  { result := t, params := [Known.object, t] }

/- A method without code; its second parameter has a name. -/
def smallDraft
    (t : Ty) : Except ClassFileError MethodDraft :=
  smallClass.method 9 "run" (smallSignature t) ["ctx", "x"]

theorem smallPackage_legal :
    PackageName.isLegal "" = true := by
  decide

def smallContext : Context :=
  { symbols := {}, config := {}, package := ⟨"", smallPackage_legal⟩ }

def smallEnv : Environment :=
  .ofList [("x", ⟨1⟩)]

/- Values are numbers, and a call gives the calls before it. -/
def smallWorld : World Nat where
  constant _ := 0
  answer trace _ := trace.length

/- The context is 7, and a parameter has the next two slots. -/
def smallMachine
    (x next : Cell Nat) : Machine Nat where
  stack := []
  cells
    | 0 => .single 7
    | 1 => x
    | 2 => next
    | _ => .empty
  trace := []

/- Names hide each other: `let y = x; let x = 3; let x = y; x`. -/
def shadowing : Exp :=
  let int := ValueType.base .int
  let long := ValueType.base .long
  .letIn "y" (.var "x" none long)
    (.letIn "x" (.int 3 int)
      (.letIn "x" (.var "y" none long) (.var "x" none long) long)
      long)
    long

theorem shadowing_simulates :
    ∃ m m' t is s',
      smallDraft (.primitive .long) = .ok m ∧
      Gives (smallContext.assemble shadowing smallEnv ⟨0⟩) m t
        m' ∧
      m'.lines.toList = m.lines.toList ++ is.map .instruction ∧
      Machine.run smallWorld m'.pool is
        (smallMachine (.double 8) .second) = some s' ∧
      s'.stack = [8] ∧ s'.trace = [] := by
  have hDraft : ∃ m, smallDraft (.primitive .long) = .ok m ∧
      (smallContext.assemble shadowing smallEnv ⟨0⟩ m).isOk ∧
      ∀ i, i < 2 → m.LocalHolds
        (smallMachine (.double 8) .second) ⟨i⟩ (7 + i) := by
    refine ⟨_, rfl, by decide +kernel, ?_⟩
    intro i hi
    match i with
    | 0 => exact ⟨_, rfl, rfl⟩
    | 1 => exact ⟨_, rfl, rfl⟩
  rcases hDraft with ⟨m, hMethod, hOk, hLocals⟩
  have hEnv : ∀ x l, smallEnv.get? x = some l →
      m.LocalHolds (smallMachine (.double 8) .second) l
        (7 + l.index) := by
    intro x l hName
    have hl : l = ⟨1⟩ := by
      simp only [smallEnv, Environment.ofList, Environment.get?,
        Environment.bind, List.foldl_cons, List.foldl_nil,
        List.lookup_cons, List.lookup_nil] at hName
      split at hName
      · cases hName
        rfl
      · cases hName
    rw [hl]
    exact hLocals 1 (by omega)
  cases hAssemble : smallContext.assemble shadowing smallEnv ⟨0⟩ m
    with
  | error e =>
      rw [hAssemble] at hOk
      cases hOk
  | ok r =>
      rcases r with ⟨t, m'⟩
      rcases Context.assemble_simulates smallWorld smallContext []
          (fun l => 7 + l.index)
          (smallMachine (.double 8) .second)
          ConstantPool.sound_empty hMethod hEnv
          (hLocals 0 (by omega)) hAssemble with
        ⟨is, v, s', hLines, hValue, hRun, hStack, -⟩
      have hSame : some (v, s'.trace) = some (8, []) :=
        hValue.symm.trans rfl
      rcases Prod.ext_iff.mp (Option.some.inj hSame) with
        ⟨rfl, hTrace⟩
      exact ⟨m, m', t, is, s', hMethod, hAssemble, hLines,
        hRun _ fun _ _ hGet => hGet, hStack, hTrace⟩

/- An application without arguments: `x()`. -/
def bareApplication : Exp :=
  let any := ValueType.base .any
  let strategy := ValueType.strategy [any] any any
  .apply (.var "x" none strategy) [] strategy

/-
  If applications always called the strategy, code would not
  do what its expression says.
-/
theorem bareApplication_is_not_called :
    ∃ m m' t is s',
      smallDraft Known.object = .ok m ∧
      Gives (smallContext.assemble bareApplication smallEnv ⟨0⟩) m
        t m' ∧
      m'.lines.toList = m.lines.toList ++ is.map .instruction ∧
      Machine.run smallWorld m'.pool is
        (smallMachine (.single 8) .empty) = some s' ∧
      s'.trace = [] ∧
      bareApplication.run smallContext smallWorld
        smallWorld.supplyAlways 7
        (fun x => (smallEnv.get? x).map (7 + ·.index)) [] =
          some (0, [.apply 8 []]) :=
  ⟨_, _, _, [⟨0, .loadShort .ref 1, false, []⟩], _, rfl, rfl,
    rfl, rfl, rfl, rfl⟩

end Stratagem

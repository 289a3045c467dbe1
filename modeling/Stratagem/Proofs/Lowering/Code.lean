import Stratagem.Lowering.Body
import Stratagem.Proofs.Assembly.Calls

/-
  The code of expressions.

  Relations say which actions an expression becomes, given the
  types of the locals and the names in scope.  What is written
  for an expression is related to it.

  Key definitions include:
    * `Coerces`
    * `ImmediateCode`
    * `CompoundCode`
    * `SpineCode`

  Main declarations:
    * `Context.immediate_code`
    * `Context.compound_code`
    * `Context.spine_code`
    * `Context.assemble_code`
-/

namespace Stratagem

open Jvm

------------------------------------------------------------
-- Relations
------------------------------------------------------------

/- Code that turns a value of one type into one of another. -/
inductive Coerces : Ty → Ty → List Action → Prop
  | same
      {source target : Ty}
      {d : String}
      (hSource : source.descriptor = .ok d)
      (hTarget : target.descriptor = .ok d) :
      Coerces source target []
  | cast
      {source target : Ty}
      (hSource : source.isPrimitive = false)
      (hTarget : target.isPrimitive = false) :
      Coerces source target (castActions target)
  | box
      {source target : Ty}
      (hSource : source.isPrimitive = true)
      (hTarget : target.isPrimitive = false) :
      Coerces source target
        (boxActions source ++ castActions target)
  | unbox
      {source target : Ty}
      (hSource : source.isPrimitive = false)
      (hTarget : target.isPrimitive = true) :
      Coerces source target (unboxActions target)

/- An integer as a constant of a type. -/
def literalOf
    (n : Int32) : Ty → Literal
  | .primitive .long => .long n.toInt64
  | .primitive .float => .float (.ofInt n.toInt)
  | .primitive .double => .double (.ofInt n.toInt)
  | _ => .int n

/- Code that pushes an integer as a value of a type. -/
def literalActions
    (n : Int32) : Ty → List Action
  | .primitive p => [.push (literalOf n (.primitive p))]
  | _ => .push (.int n) :: boxActions (.primitive .int)

/- The type that an integer gets instead of a type. -/
def literalTy : Ty → Ty
  | .primitive p => .primitive p
  | _ => Ty.asReference (.primitive .int)

/- The method that gives the one object of a class. -/
def MemberRef.getInstance
    (owner : String) : MemberRef :=
  .ofCall .static owner "getInstance" ("()L" ++ owner ++ ";")

/- A descriptor that a call can name. -/
structure IsCallText
    (d : String) : Prop where
  short : (ModifiedUtf8.encode d).length ≤ 65535
  reads : ∃ params result,
    parseMethodDescriptor d = .ok (params, result)

/- The code of a variable or a constant. -/
inductive ImmediateCode
    (c : Context)
    (ts : List Ty)
    (env : Environment) : Exp → List Action → Ty → Prop
  | bound
      {name : String}
      {pointer : Option Pointer}
      {ty : ValueType}
      {l : Local}
      {t : Ty}
      (hName : env.get? name = some l)
      (hLocal : ts[l.index]? = some t) :
      ImmediateCode c ts env (.var name pointer ty)
        [.load (.ofTy t) (Ty.slotOf ts l.index)] t
  | global
      {name : String}
      {pointer : Option Pointer}
      {ty : ValueType}
      {d : StrategyDecl}
      (hName : env.get? name = none)
      (hDecl : c.resolve name pointer = .ok (.strategy d))
      (hCall : IsCallText
        (MemberRef.getInstance
          (d.name.internalName "Strategy")).descriptor) :
      ImmediateCode c ts env (.var name pointer ty)
        [.invoke .static
          (.getInstance (d.name.internalName "Strategy"))]
        (Context.strategyClass d)
  | int
      {n : Int32}
      {ty : ValueType}
      {t : Ty}
      (hType : c.lower ty = .ok t) :
      ImmediateCode c ts env (.int n ty) (literalActions n t)
        (literalTy t)
  | str
      {value : String}
      {ty : ValueType} :
      ImmediateCode c ts env (.str value ty)
        [.push (.string value)] Known.string
  | object
      {ty : ValueType}
      {offset : Nat} :
      ImmediateCode c ts env (.object ty)
        [.new offset "java/lang/Object", .dup,
          .invoke .special (.ofCall .special "java/lang/Object"
            "<init>" "()V")]
        Known.object

/- The code of operands that are pushed as objects. -/
inductive ArgsCode
    (c : Context)
    (ts : List Ty)
    (env : Environment) : List Exp → List Action → Prop
  | nil : ArgsCode c ts env [] []
  | cons
      {e : Exp}
      {es : List Exp}
      {as bs : List Action}
      {t : Ty}
      (hFirst : ImmediateCode c ts env e as t)
      (hRest : ArgsCode c ts env es bs) :
      ArgsCode c ts env (e :: es) (as ++ boxActions t ++ bs)

/- The code of one computation. -/
inductive CompoundCode
    (c : Context)
    (ts : List Ty)
    (env : Environment)
    (ctx : Local) : Exp → List Action → Ty → Prop
  | immediate
      {e : Exp}
      {as : List Action}
      {t : Ty}
      (hCode : ImmediateCode c ts env e as t) :
      CompoundCode c ts env ctx e as t
  | applyNone
      {function : Exp}
      {ty : ValueType}
      {as : List Action}
      {t : Ty}
      (hFunction : ImmediateCode c ts env function as t) :
      CompoundCode c ts env ctx (.apply function [] ty) as t
  | apply
      {function : Exp}
      {args : List Exp}
      {ty : ValueType}
      {s rest : StrategyType}
      {as bs cs : List Action}
      {t target result : Ty}
      {owner d : String}
      (hSome : args ≠ [])
      (hFunction : ImmediateCode c ts env function as t)
      (hTarget : c.strategyTy s = .ok target)
      (hCoerce : Coerces t target bs)
      (hArgs : ArgsCode c ts env args cs)
      (hOwner : c.config.strategyInterface s.arity = .ok owner)
      (hText : c.applyDescriptor args.length rest.arity = .ok d)
      (hCall : IsCallText d)
      (hResult : c.strategyTy rest = .ok result) :
      CompoundCode c ts env ctx (.apply function args ty)
        (as ++ bs ++ cs ++
          [.invoke .interface (.ofCall .interface owner "apply" d)])
        result
  | eval
      {strategy input : Exp}
      {ty : ValueType}
      {s : StrategyType}
      {as bs cs : List Action}
      {t target context inputTy result : Ty}
      {owner d : String}
      (hArity : s.arity = 0)
      (hStrategy : ImmediateCode c ts env strategy as t)
      (hTarget : c.strategyTy s = .ok target)
      (hCoerce : Coerces t target bs)
      (hContext : ts[ctx.index]? = some context)
      (hInput : ImmediateCode c ts env input cs inputTy)
      (hOwner : c.config.strategyInterface 0 = .ok owner)
      (hText : (Context.bridgeSignature 0).descriptor = .ok d)
      (hResult : c.lower ty = .ok result) :
      CompoundCode c ts env ctx (.eval strategy input ty)
        (as ++ bs ++
          [.load (.ofTy context) (Ty.slotOf ts ctx.index)] ++ cs ++
          boxActions inputTy ++
          [.invoke .interface (.ofCall .interface owner "eval" d)] ++
          unboxActions result)
        result

/-
  The code of bindings in front of a computation, with the
  types of the locals that they get.
-/
inductive SpineCode
    (c : Context)
    (ctx : Local) :
    List Ty → Environment → Exp → List Action → List Ty → Ty → Prop
  | letIn
      {ts us : List Ty}
      {env : Environment}
      {name : String}
      {bound body : Exp}
      {ty : ValueType}
      {as bs cs : List Action}
      {t source result : Ty}
      (hType : c.lower bound.ty = .ok t)
      (hBound : CompoundCode c ts env ctx bound as source)
      (hCoerce : Coerces source t bs)
      (hBody : SpineCode c ctx (ts ++ [t])
        (env.bind name ⟨ts.length⟩) body cs us result) :
      SpineCode c ctx ts env (.letIn name bound body ty)
        (as ++ bs ++ [.store (.ofTy t) (Ty.widths ts)] ++ cs)
        (t :: us) result
  | last
      {ts : List Ty}
      {env : Environment}
      {e : Exp}
      {as : List Action}
      {t : Ty}
      (hCode : CompoundCode c ts env ctx e as t) :
      SpineCode c ctx ts env e as [] t

------------------------------------------------------------
-- Written Code
------------------------------------------------------------

/- Nothing is given where the other step fails. -/
theorem gives_orGiveUp
    {σ ε ε' α : Type}
    {wrap : ε → ε'}
    {x : ExceptT ε (StateM σ) α}
    {s s' : σ}
    {a : α} :
    Gives (orGiveUp wrap x) s a s' ↔ Yields x s a s' := by
  have hRun : orGiveUp wrap x s =
      match outcomeOf x s with
      | (.ok a, s) => .ok (a, s)
      | (.error e, _) => .error (wrap e) := rfl
  unfold Gives Yields
  rw [hRun]
  rcases outcomeOf x s with ⟨result, s₁⟩
  cases result with
  | error e => simp
  | ok b => simp

@[simp] theorem gives_emit
    {α : Type}
    {x : Emitter α}
    {m m' : MethodDraft}
    {a : α} :
    Gives (Assembling.emit x) m a m' ↔ Yields x m a m' :=
  gives_orGiveUp

theorem ofTypeError_eq_ok
    {α : Type}
    {r : Except TypeError α}
    {a : α} :
    Context.ofTypeError r = .ok a ↔ r = .ok a := by
  cases r with
  | error e => simp [Context.ofTypeError]
  | ok b => simp [Context.ofTypeError]

/- Types of values with parts become types of objects. -/
theorem Context.lower_cases
    {c : Context}
    {ty : ValueType}
    {t : Ty}
    (hType : c.lower ty = .ok t) :
    (∃ b, ty = .base b ∧ lowerBase b = .ok t) ∨
      (∀ b, ty ≠ .base b) ∧ ∃ o, t = .object o := by
  cases ty with
  | base b =>
      rw [lower] at hType
      exact Or.inl ⟨b, rfl, hType⟩
  | strategy params input output =>
      simp only [lower, ok_bind] at hType
      rcases hType with ⟨_, _, _, _, _, _, _, _, hEnd⟩
      cases hEnd
      exact Or.inr ⟨nofun, _, rfl⟩
  | tuple components => simp [lower] at hType
  | list element =>
      simp only [lower, ok_bind] at hType
      rcases hType with ⟨_, _, hEnd⟩
      cases hEnd
      exact Or.inr ⟨nofun, _, rfl⟩
  | classRef name pointer =>
      simp only [lower, lowerClass] at hType
      split at hType
      case h_1 =>
          cases hType
          exact Or.inr ⟨nofun, _, rfl⟩
      case h_2 => cases hType

/- Lowered types are types of values. -/
theorem Context.isValue_of_lower
    {c : Context}
    {ty : ValueType}
    {t : Ty}
    (hType : c.lower ty = .ok t) :
    t.isValue = true := by
  rcases lower_cases hType with ⟨b, -, hBase⟩ | ⟨-, o, rfl⟩
  · cases b <;> cases hBase <;> rfl
  · rfl

section Written

open Emitter

variable {c : Context} {env : Environment} {ctx : Local}
variable {m m' : MethodDraft} {u : Unit} {t : Ty}

/- A step wrote actions and left the draft sound. -/
def Wrote
    (m : MethodDraft)
    (as : List Action)
    (ts : List Ty)
    (m' : MethodDraft) : Prop :=
  Emits m as ts m' ∧ m'.Sound

theorem Wrote.trans
    {m₁ : MethodDraft}
    {as bs : List Action}
    {ts us : List Ty}
    (hFirst : Wrote m as ts m₁)
    (hNext : Wrote m₁ bs us m') :
    Wrote m (as ++ bs) (ts ++ us) m' :=
  ⟨hFirst.1.trans hNext.1, hNext.2⟩

theorem Wrote.types_eq
    {as : List Action}
    (hWrote : Wrote m as [] m') :
    m'.types = m.types := by
  rw [hWrote.1.types, List.append_nil]

theorem Context.coerce_code
    {source target : Ty}
    (hSound : m.Sound)
    (hRun : Gives (coerce source target) m u m') :
    ∃ as, Coerces source target as ∧ Wrote m as [] m' := by
  unfold coerce at hRun
  simp only [gives_bind, gives_liftExcept, ofTypeError_eq_ok]
    at hRun
  rcases hRun with ⟨d, m, ⟨hSource, rfl⟩, e, m, ⟨hTarget, rfl⟩,
    hRun⟩
  split at hRun
  case isTrue hSame =>
      rcases gives_pure.mp hRun with ⟨-, rfl⟩
      subst hSame
      exact ⟨[], .same hSource hTarget, .refl _, hSound⟩
  case isFalse =>
      split at hRun
      case h_1 hs ht =>
          rw [gives_emit] at hRun
          exact ⟨_, .cast hs ht, emits_checkcast hSound hRun,
            (safe_checkcast _).of_yields hRun hSound⟩
      case h_2 hs ht =>
          simp only [gives_bind, gives_emit] at hRun
          rcases hRun with ⟨_, m₁, hBox, hCast⟩
          have hSound₁ := (safe_box _).of_yields hBox hSound
          refine ⟨_, .box hs ht, ?_,
            (safe_checkcast _).of_yields hCast hSound₁⟩
          exact (emits_box hSound hBox).trans
            (emits_checkcast hSound₁ hCast)
      case h_3 hs ht =>
          rw [gives_emit] at hRun
          exact ⟨_, .unbox hs ht, emits_unbox hSound hRun,
            (safe_unbox _).of_yields hRun hSound⟩
      case h_4 => exact absurd hRun gives_throw

/- A call that was written has a descriptor that can be read. -/
theorem isCallText_of_invoke
    {kind : CallKind}
    {owner name d : String}
    (hRun : Yields (invoke kind owner name d) m u m') :
    IsCallText d := by
  unfold invoke at hRun
  split at hRun
  case h_1 => exact absurd hRun yields_throw
  case h_2 params result hReads =>
      simp only [yields_bind, yields_pooled] at hRun
      rcases hRun with ⟨index, _, ⟨p, hPool, -⟩, -⟩
      rcases yields_bind.mp hPool with ⟨_, p₁, -, hRest⟩
      rcases yields_bind.mp hRest with ⟨_, p₂, hPair, -⟩
      rcases yields_bind.mp hPair with ⟨_, p₃, -, hMore⟩
      rcases yields_bind.mp hMore with ⟨_, p₄, hText, -⟩
      exact ⟨(Pooling.yields_text.mp hText).1, _, _, hReads⟩

theorem wrote_invoke
    {kind : CallKind}
    {owner name d : String}
    (hSound : m.Sound)
    (hRun : Yields (invoke kind owner name d) m u m') :
    Wrote m [.invoke kind (.ofCall kind owner name d)] [] m' :=
  ⟨emits_invoke hSound hRun,
    (safe_invoke _ _ _ _).of_yields hRun hSound⟩

theorem wrote_box
    (hSound : m.Sound)
    (hRun : Yields (box t) m u m') :
    Wrote m (boxActions t) [] m' :=
  ⟨emits_box hSound hRun, (safe_box _).of_yields hRun hSound⟩

theorem wrote_unbox
    (hSound : m.Sound)
    (hRun : Yields (unbox t) m u m') :
    Wrote m (unboxActions t) [] m' :=
  ⟨emits_unbox hSound hRun, (safe_unbox _).of_yields hRun hSound⟩

theorem wrote_load
    {l : Local}
    (hSound : m.Sound)
    (hType : m.types[l.index]? = some t)
    (hRun : Yields (load l) m u m') :
    Wrote m [.load (.ofTy t) (Ty.slotOf m.types l.index)] [] m' :=
  ⟨emits_load hSound hType hRun,
    (safe_load _).of_yields hRun hSound⟩

theorem Context.global_code
    {name : String}
    {pointer : Option Pointer}
    {ty : ValueType}
    (hSound : m.Sound)
    (hName : env.get? name = none)
    (hRun : Gives (c.global name pointer) m t m') :
    ∃ as, ImmediateCode c m.types env (.var name pointer ty) as t ∧
      Wrote m as [] m' := by
  unfold global at hRun
  simp only [gives_bind, gives_liftExcept] at hRun
  rcases hRun with ⟨decl, m, ⟨hDecl, rfl⟩, hRun⟩
  cases decl with
  | classType d => exact absurd hRun gives_throw
  | strategy d =>
      simp only [gives_bind, gives_liftExcept, ofTypeError_eq_ok,
        gives_emit, gives_pure, strategyClass,
        internalName_ofClass, descriptor_ofClass] at hRun
      rcases hRun with ⟨owner, m, ⟨hOwner, rfl⟩, result, m,
        ⟨hResult, rfl⟩, _, m₁, hCall, rfl, rfl⟩
      cases hOwner
      cases hResult
      have hText : MemberRef.ofCall .static
          (d.name.internalName "Strategy") "getInstance"
          (toString "()" ++ toString
            ("L" ++ d.name.internalName "Strategy" ++ ";")) =
          .getInstance (d.name.internalName "Strategy") := by
        unfold MemberRef.getInstance
        congr 1
      refine ⟨_, .global hName hDecl ?_, ?_⟩
      · rw [← hText]
        exact isCallText_of_invoke hCall
      · rw [← hText]
        exact wrote_invoke hSound hCall

theorem Context.literal_code
    {n : Int32}
    {ty : ValueType}
    (hSound : m.Sound)
    (hRun : Gives (c.literal n ty) m t m') :
    ∃ as, ImmediateCode c m.types env (.int n ty) as t ∧
      Wrote m as [] m' := by
  unfold literal at hRun
  simp only [gives_bind, gives_liftExcept] at hRun
  rcases hRun with ⟨target, m, ⟨hType, rfl⟩, hRun⟩
  split at hRun
  case h_1 =>
      simp only [gives_bind, gives_emit, gives_pure] at hRun
      rcases hRun with ⟨_, m₁, hPush, rfl, rfl⟩
      exact ⟨_, .int hType, emits_lconst hSound.pool.indexed hPush,
        (safe_lconst _).of_yields hPush hSound⟩
  case h_2 =>
      simp only [gives_bind, gives_emit, gives_pure] at hRun
      rcases hRun with ⟨_, m₁, hPush, rfl, rfl⟩
      exact ⟨_, .int hType, emits_fconst hSound.pool.indexed hPush,
        (safe_fconst _).of_yields hPush hSound⟩
  case h_3 =>
      simp only [gives_bind, gives_emit, gives_pure] at hRun
      rcases hRun with ⟨_, m₁, hPush, rfl, rfl⟩
      exact ⟨_, .int hType, emits_dconst hSound.pool.indexed hPush,
        (safe_dconst _).of_yields hPush hSound⟩
  case h_4 p hLong hFloat hDouble =>
      simp only [gives_bind, gives_emit, gives_pure] at hRun
      rcases hRun with ⟨_, m₁, hPush, rfl, rfl⟩
      refine ⟨_, .int hType, ?_,
        (safe_iconst _).of_yields hPush hSound⟩
      have hLiteral : literalOf n (.primitive p) = .int n := by
        cases p with
        | long => exact absurd rfl hLong
        | float => exact absurd rfl hFloat
        | double => exact absurd rfl hDouble
        | _ => rfl
      rw [literalActions, hLiteral]
      exact emits_iconst hSound.pool.indexed hPush
  case h_5 hLong hFloat hDouble hPrimitive =>
      simp only [gives_bind, gives_emit, gives_pure] at hRun
      rcases hRun with ⟨_, m₁, hPush, _, m', hBox, rfl, rfl⟩
      have hSound₁ := (safe_iconst _).of_yields hPush hSound
      have hCode : Wrote m (.push (.int n) ::
          boxActions (.primitive .int)) [] m' :=
        Wrote.trans ⟨emits_iconst hSound.pool.indexed hPush, hSound₁⟩
          (wrote_box hSound₁ hBox)
      have hInt : ImmediateCode c m.types env (.int n ty) _ _ :=
        .int hType
      cases target with
      | primitive p => exact absurd rfl (hPrimitive p)
      | _ => exact ⟨_, hInt, hCode⟩

/- A new object whose constructor takes nothing. -/
theorem wrote_new
    {m₁ m₂ : MethodDraft}
    {name : String}
    (hSound : m.Sound)
    (hNew : Yields (Emitter.new name) m u m₁)
    (hDup : Yields dup m₁ u m₂)
    (hCall : Yields (invoke .special name "<init>" "()V") m₂ u
      m') :
    Wrote m
      [.new m.offset name, .dup,
        .invoke .special (.ofCall .special name "<init>" "()V")]
      [] m' := by
  have hSound₁ := (safe_new _).of_yields hNew hSound
  have hSound₂ := safe_dup.of_yields hDup hSound₁
  exact Wrote.trans ⟨emits_new hSound hNew, hSound₁⟩
    (Wrote.trans ⟨emits_dup hDup, hSound₂⟩
      (wrote_invoke hSound₂ hCall))

/-
  A local whose type is asked for is there.  One that is
  missing would not have been loaded.
-/
theorem Context.load_code
    {l : Local}
    {m₁ : MethodDraft}
    (hSound : m.Sound)
    (hLoad : Yields (load l) m u m₁)
    (hType : Gives (localTy l) m₁ t m') :
    m.types[l.index]? = some t ∧
      Wrote m [.load (.ofTy t) (Ty.slotOf m.types l.index)] []
        m' := by
  unfold localTy at hType
  simp only [gives_bind, gives_get] at hType
  rcases hType with ⟨_, m₁, ⟨rfl, rfl⟩, hType⟩
  have hThere : ∃ v, m.types[l.index]? = some v := by
    cases hLocal : m.locals[l.index]? with
    | none =>
        unfold load at hLoad
        simp only [yields_bind, yields_get] at hLoad
        rcases hLoad with ⟨_, m, ⟨rfl, rfl⟩, hLoad⟩
        rw [hLocal] at hLoad
        rcases yields_pure.mp hLoad with ⟨-, rfl⟩
        rw [hLocal] at hType
        exact absurd hType gives_throw
    | some v =>
        refine ⟨v.ty, ?_⟩
        rw [MethodDraft.Sound.types_getElem?, hLocal]
        rfl
  rcases hThere with ⟨v, hv⟩
  have hWrote := wrote_load hSound hv hLoad
  have hSame := hWrote.types_eq
  cases hLocal : m₁.locals[l.index]? with
  | none =>
      rw [hLocal] at hType
      exact absurd hType gives_throw
  | some w =>
      rw [hLocal] at hType
      rcases gives_pure.mp hType with ⟨rfl, rfl⟩
      have hw : m.types[l.index]? = some w.ty := by
        rw [← hSame, MethodDraft.Sound.types_getElem?, hLocal]
        rfl
      rw [hv] at hw
      cases hw
      exact ⟨hv, hWrote⟩

theorem Context.immediate_code
    {e : Exp}
    (hSound : m.Sound)
    (hRun : Gives (c.immediate env e) m t m') :
    ∃ as, ImmediateCode c m.types env e as t ∧
      Wrote m as [] m' := by
  cases e with
  | var name pointer ty =>
      simp only [immediate] at hRun
      split at hRun
      case h_1 l hName =>
          simp only [gives_bind, gives_emit] at hRun
          rcases hRun with ⟨_, m₁, hLoad, hType⟩
          rcases load_code hSound hLoad hType with ⟨hLocal, hWrote⟩
          exact ⟨_, .bound hName hLocal, hWrote⟩
      case h_2 hName => exact global_code hSound hName hRun
  | int n ty => exact literal_code hSound hRun
  | str value ty =>
      simp only [immediate, gives_bind, gives_emit, gives_pure]
        at hRun
      rcases hRun with ⟨_, m₁, hPush, rfl, rfl⟩
      exact ⟨_, .str, emits_ldcString hSound.pool.indexed hPush,
        (safe_ldcString _).of_yields hPush hSound⟩
  | object ty =>
      simp only [immediate, gives_bind, gives_emit, gives_pure]
        at hRun
      rcases hRun with ⟨_, m₁, hMade, rfl, rfl⟩
      simp only [newObject, yields_bind] at hMade
      rcases hMade with ⟨_, m₂, hNew, _, m₃, hDup, hCall⟩
      exact ⟨_, .object, wrote_new hSound hNew hDup hCall⟩
  | _ => exact absurd hRun gives_throw

theorem Context.boxedArgs_code
    {es : List Exp}
    (hSound : m.Sound)
    (hRun : Gives (c.boxedArgs env es) m u m') :
    ∃ as, ArgsCode c m.types env es as ∧ Wrote m as [] m' := by
  induction es generalizing m with
  | nil =>
      rcases gives_pure.mp hRun with ⟨-, rfl⟩
      exact ⟨[], .nil, .refl _, hSound⟩
  | cons e es ih =>
      simp only [boxedArgs, gives_bind, gives_emit] at hRun
      rcases hRun with ⟨t, m₁, hFirst, _, m₂, hBox, hRest⟩
      rcases immediate_code hSound hFirst with ⟨as, hCode, hWrote⟩
      have hBoxed := hWrote.trans (wrote_box hWrote.2 hBox)
      rcases ih hBoxed.2 hRest with ⟨bs, hCodes, hWrotes⟩
      rw [hBoxed.types_eq] at hCodes
      exact ⟨_, .cons hCode hCodes, hBoxed.trans hWrotes⟩

theorem Context.application_code
    {function : Exp}
    {args : List Exp}
    {ty : ValueType}
    (hSound : m.Sound)
    (hRun : Gives (c.application env function args) m t m') :
    ∃ as, CompoundCode c m.types env ctx
        (.apply function args ty) as t ∧ Wrote m as [] m' := by
  unfold application at hRun
  simp only [gives_bind, gives_liftExcept] at hRun
  rcases hRun with ⟨s, m, ⟨_, rfl⟩, rest, m, ⟨_, rfl⟩, source,
    m₁, hFunction, hRun⟩
  rcases immediate_code hSound hFunction with ⟨as, hCode, hWrote⟩
  split at hRun
  case isTrue hEmpty =>
      rcases gives_pure.mp hRun with ⟨rfl, rfl⟩
      cases List.isEmpty_iff.mp hEmpty
      exact ⟨as, .applyNone hCode, hWrote⟩
  case isFalse hSome =>
      simp only [gives_bind, gives_liftExcept, gives_emit] at hRun
      rcases hRun with ⟨target, m₁, ⟨hTarget, rfl⟩, _, m₂, hCoerce,
        _, m₃, hArgs, owner, m₃, ⟨hOwner, rfl⟩, d, m₃,
        ⟨hText, rfl⟩, _, m₄, hCall, hResult, rfl⟩
      rcases coerce_code hWrote.2 hCoerce with ⟨bs, hCoerces, hTwo⟩
      have hTwice := hWrote.trans hTwo
      rcases boxedArgs_code hTwice.2 hArgs with ⟨cs, hCodes, hThree⟩
      rw [hTwice.types_eq] at hCodes
      have hThrice := hTwice.trans hThree
      refine ⟨_, .apply ?_ hCode hTarget hCoerces hCodes hOwner
        hText (isCallText_of_invoke hCall) hResult,
        hThrice.trans (wrote_invoke hThrice.2 hCall)⟩
      rintro rfl
      exact hSome rfl

theorem Context.evaluation_code
    {strategy input : Exp}
    {ty : ValueType}
    {context : Ty}
    (hSound : m.Sound)
    (hContext : m.types[ctx.index]? = some context)
    (hRun : Gives (c.evaluation env ctx strategy input ty) m t
      m') :
    ∃ as, CompoundCode c m.types env ctx
        (.eval strategy input ty) as t ∧ Wrote m as [] m' := by
  unfold evaluation at hRun
  simp only [gives_bind, gives_liftExcept] at hRun
  rcases hRun with ⟨s, m, ⟨_, rfl⟩, hRun⟩
  split at hRun
  case isTrue => simp at hRun
  case isFalse hNone =>
      simp only [gives_bind, gives_liftExcept, gives_emit,
        gives_pure, ofTypeError_eq_ok] at hRun
      rcases hRun with ⟨source, m₁, hStrategy, target, m₁,
        ⟨hTarget, rfl⟩, _, m₂, hCoerce, _, m₃, hLoad, inputTy, m₄,
        hInput, _, m₅, hBox, owner, m₅, ⟨hOwner, rfl⟩, d, m₅,
        ⟨hText, rfl⟩, _, m₆, hCall, result, m₆, ⟨hResult, rfl⟩, _,
        m₇, hUnbox, rfl, rfl⟩
      rcases immediate_code hSound hStrategy with
        ⟨as, hCode, hOne⟩
      rcases coerce_code hOne.2 hCoerce with ⟨bs, hCoerces, hTwo⟩
      have h₂ := hOne.trans hTwo
      have hThere := hContext
      rw [← h₂.types_eq] at hThere
      have hThree := wrote_load h₂.2 hThere hLoad
      rw [h₂.types_eq] at hThree
      have h₃ := h₂.trans hThree
      rcases immediate_code h₃.2 hInput with ⟨cs, hCode', hFour⟩
      rw [h₃.types_eq] at hCode'
      have h₅ := (h₃.trans hFour).trans
        (wrote_box hFour.2 hBox)
      have h₆ := h₅.trans (wrote_invoke h₅.2 hCall)
      refine ⟨_, .eval (Decidable.of_not_not hNone) hCode hTarget
        hCoerces hContext hCode' hOwner hText hResult,
        h₆.trans (wrote_unbox h₆.2 hUnbox)⟩

theorem Context.compound_code
    {e : Exp}
    {context : Ty}
    (hSound : m.Sound)
    (hContext : m.types[ctx.index]? = some context)
    (hRun : Gives (c.compound env ctx e) m t m') :
    ∃ as, CompoundCode c m.types env ctx e as t ∧
      Wrote m as [] m' := by
  have hImmediate : Gives (c.immediate env e) m t m' →
      ∃ as, CompoundCode c m.types env ctx e as t ∧
        Wrote m as [] m' := by
    intro hRun
    rcases immediate_code hSound hRun with ⟨as, hCode, hWrote⟩
    exact ⟨as, .immediate hCode, hWrote⟩
  cases e with
  | apply function args ty => exact application_code hSound hRun
  | eval strategy input ty =>
      exact evaluation_code hSound hContext hRun
  | seq first second ty => exact absurd hRun gives_throw
  | letIn name bound body ty => exact absurd hRun gives_throw
  | _ => exact hImmediate hRun

/- What is written for an expression is its code. -/
theorem Context.spine_code
    {e : Exp}
    {context : Ty}
    (hSound : m.Sound)
    (hContext : m.types[ctx.index]? = some context)
    (hRun : Gives (c.spine ctx e env) m t m') :
    ∃ as us, SpineCode c ctx m.types env e as us t ∧
      Wrote m as us m' := by
  induction e, env using Context.spine.induct generalizing m with
  | case1 name bound body ty env ih =>
      simp only [spine, gives_bind, gives_liftExcept, gives_emit]
        at hRun
      rcases hRun with ⟨t₁, m, ⟨hType, rfl⟩, source, m₁, hBound, _,
        m₂, hCoerce, l, m₃, hLocal, _, m₄, hStore, hBody⟩
      rcases compound_code hSound hContext hBound with
        ⟨as, hCode, hOne⟩
      rcases coerce_code hOne.2 hCoerce with ⟨bs, hCoerces, hTwo⟩
      have h₂ := hOne.trans hTwo
      rcases emits_newLocal h₂.2 (isValue_of_lower hType) hLocal
        with ⟨hThree, hIndex⟩
      have h₃ := h₂.trans
        ⟨hThree, (safe_newLocal _ _).of_yields hLocal h₂.2⟩
      rw [h₂.types_eq] at hIndex
      have hTypes : m₃.types = m.types ++ [t₁] := h₃.1.types
      have hHere : m₃.types[l.index]? = some t₁ := by
        rw [hTypes, hIndex]
        simp
      have hFour := emits_store h₃.2 hHere hStore
      have hSlot : Ty.slotOf m₃.types l.index =
          Ty.widths m.types := by
        rw [hTypes, hIndex, Ty.slotOf_append _ (Nat.le_refl _),
          Ty.slotOf_length]
      rw [hSlot] at hFour
      have h₄ := h₃.trans
        ⟨hFour, (safe_store _).of_yields hStore h₃.2⟩
      have hTypes₄ : m₄.types = m.types ++ [t₁] := by
        rw [h₄.1.types]
        rfl
      have hContext₄ : m₄.types[ctx.index]? = some context := by
        rcases List.getElem?_eq_some_iff.mp hContext with ⟨hLt, _⟩
        rw [hTypes₄, List.getElem?_append_left hLt]
        exact hContext
      rcases ih l h₄.2 hContext₄ hBody with
        ⟨cs, us, hRest, hFive⟩
      have hl : l = ⟨m.types.length⟩ := by
        rw [← hIndex]
      rw [hTypes₄, hl] at hRest
      refine ⟨_, _, .letIn hType hCode hCoerces hRest, ?_⟩
      have hAll := h₄.trans hFive
      rw [List.append_nil] at hAll
      exact hAll
  | case2 e env hOther =>
      rw [spine] at hRun
      · rcases compound_code hSound hContext hRun with
          ⟨as, hCode, hWrote⟩
        exact ⟨as, [], .last hCode, hWrote⟩
      · exact hOther

/- And so is what is written for the body of a method. -/
theorem Context.assemble_code
    {e : Exp}
    {context : Ty}
    (hSound : m.Sound)
    (hContext : m.types[ctx.index]? = some context)
    (hRun : Gives (c.assemble e env ctx) m t m') :
    ∃ as us, SpineCode c ctx m.types env e as us t ∧
      Wrote m as us m' := by
  unfold assemble at hRun
  split at hRun
  case isTrue => simp at hRun
  case isFalse => exact spine_code hSound hContext hRun

end Written

end Stratagem

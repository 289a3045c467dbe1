import Stratagem.Lowering.Compile
import Stratagem.Proofs.Steps

/-
  What the making of a class can fail with.

  Only the check of a class that was made finds it malformed.
  No step of making a class reports such a fault.

  Key definitions include:
    * `Unverified`
    * `Unverifying`

  Main declarations:
    * `Context.unverified_lower`
    * `Context.unverifying_assemble`
    * `Context.unverified_generate`
-/

namespace Stratagem

open Jvm

------------------------------------------------------------
-- Steps
------------------------------------------------------------

/- A result that is no fault of a class that was made. -/
def Unverified
    {α : Type}
    (x : Except CompileError α) : Prop :=
  ∀ e, x ≠ .error (.verification e)

/- Steps that never end in such a fault. -/
def Unverifying
    {σ α : Type}
    (x : StateT σ (Except CompileError) α) : Prop :=
  ∀ s, Unverified (x s)

section Rules

variable {σ α β : Type}

theorem unverified_ok
    (a : α) :
    Unverified (.ok a) :=
  nofun

theorem Unverified.bind
    {x : Except CompileError α}
    {f : α → Except CompileError β}
    (hFirst : Unverified x)
    (hNext : ∀ a, Unverified (f a)) :
    Unverified (x >>= f) := by
  cases x with
  | error e => exact fun e' hSame => hFirst e' (by
      cases hSame
      rfl)
  | ok a => exact hNext a

theorem unverifying_pure
    (a : α) :
    Unverifying (pure a : StateT σ (Except CompileError) α) :=
  fun _ => unverified_ok _

theorem unverifying_throw
    {e : CompileError}
    (hOther : ∀ v, e ≠ .verification v) :
    Unverifying (throw e : StateT σ (Except CompileError) α) :=
  fun _ v hSame => hOther v (Except.error.inj hSame)

theorem Unverifying.bind
    {x : StateT σ (Except CompileError) α}
    {f : α → StateT σ (Except CompileError) β}
    (hFirst : Unverifying x)
    (hNext : ∀ a, Unverifying (f a)) :
    Unverifying (x >>= f) :=
  fun s => (hFirst s).bind fun r => hNext r.1 r.2

theorem unverifying_get :
    Unverifying (get : StateT σ (Except CompileError) σ) :=
  fun _ => unverified_ok _

theorem Unverified.lift
    {x : Except CompileError α}
    (hResult : Unverified x) :
    Unverifying (liftExcept x : StateT σ (Except CompileError) α) := by
  intro s
  cases x with
  | error e => exact fun e' hSame => hResult e' (by
      cases hSame
      rfl)
  | ok a => exact unverified_ok _

/- A failure of the class file is not one of verification. -/
theorem unverifying_orGiveUp
    (x : ExceptT ClassFileError (StateM σ) α) :
    Unverifying (orGiveUp CompileError.classFile x) := by
  intro s
  unfold orGiveUp
  split
  case h_1 => exact unverified_ok _
  case h_2 => exact nofun

theorem unverifying_emit
    (x : Emitter α) :
    Unverifying (Assembling.emit x) :=
  unverifying_orGiveUp x

theorem unverifying_draft
    (x : Drafting α) :
    Unverifying (Generating.draft x) :=
  unverifying_orGiveUp x

end Rules

namespace Context

variable (c : Context)

------------------------------------------------------------
-- Types
------------------------------------------------------------

theorem unverified_ofTypeError
    {α : Type}
    (x : Except TypeError α) :
    Unverified (ofTypeError x) := by
  cases x with
  | error e => exact nofun
  | ok a => exact unverified_ok a

theorem unverified_strategyInterface
    (config : Config)
    (arity : Nat) :
    Unverified (config.strategyInterface arity) := by
  unfold Config.strategyInterface
  split
  case isTrue => exact nofun
  case isFalse => exact unverified_ok _

theorem unverified_lowerClass
    (name : String)
    (pointer : Option Pointer) :
    Unverified (c.lowerClass name pointer) := by
  unfold lowerClass
  dsimp only
  split
  case h_1 => exact unverified_ok _
  case h_2 => exact nofun

mutual

theorem unverified_lower
    (ty : ValueType) :
    Unverified (c.lower ty) := by
  cases ty with
  | base b =>
      rw [lower]
      cases b <;> exact nofun
  | strategy params input output =>
      rw [lower]
      exact (unverified_lowerArgs params).bind fun _ =>
        (unverified_lower input).bind fun _ =>
          (unverified_lower output).bind fun _ =>
            (unverified_strategyInterface _ _).bind fun _ =>
              unverified_ok _
  | tuple components =>
      rw [lower]
      exact nofun
  | list element =>
      rw [lower]
      exact (unverified_lower element).bind fun _ =>
        unverified_ok _
  | classRef name pointer =>
      rw [lower]
      exact c.unverified_lowerClass name pointer

theorem unverified_lowerArgs
    (tys : List ValueType) :
    Unverified (c.lowerArgs tys) := by
  cases tys with
  | nil =>
      rw [lowerArgs]
      exact unverified_ok _
  | cons ty tys =>
      rw [lowerArgs]
      exact (unverified_lower ty).bind fun _ =>
        (unverified_lowerArgs tys).bind fun _ => unverified_ok _

end

theorem unverified_lowerAll
    (tys : List ValueType) :
    Unverified (c.lowerAll tys) := by
  induction tys with
  | nil => exact unverified_ok _
  | cons ty tys ih =>
      exact (c.unverified_lower ty).bind fun _ =>
        ih.bind fun _ => unverified_ok _

------------------------------------------------------------
-- Bodies
------------------------------------------------------------

theorem unverifying_coerce
    (source target : Ty) :
    Unverifying (coerce source target) := by
  refine (unverified_ofTypeError _).lift.bind fun d =>
    (unverified_ofTypeError _).lift.bind fun e => ?_
  by_cases hSame : d = e
  · rw [if_pos hSame]
    exact unverifying_pure _
  · rw [if_neg hSame]
    split
    case h_1 => exact unverifying_emit _
    case h_2 =>
        exact (unverifying_emit _).bind fun _ => unverifying_emit _
    case h_3 => exact unverifying_emit _
    case h_4 => exact unverifying_throw nofun

theorem unverified_resolve
    (name : String)
    (pointer : Option Pointer) :
    Unverified (c.resolve name pointer) := by
  unfold resolve
  split
  case h_1 => exact unverified_ok _
  case h_2 =>
      refine Unverified.bind ?_ fun last => ?_
      · unfold Config.defaultPackageName PackageName.ofText
        split
        case h_1 => exact unverified_ok _
        case h_2 => exact nofun
      · dsimp only
        split
        case h_1 => exact unverified_ok _
        case h_2 => exact nofun

theorem unverifying_immediate
    (env : Environment)
    (e : Exp) :
    Unverifying (c.immediate env e) := by
  cases e with
  | var name pointer ty =>
      rw [immediate]
      split
      case h_1 l _ =>
          refine (unverifying_emit _).bind fun _ =>
            unverifying_get.bind fun m => ?_
          split
          case h_1 => exact unverifying_pure _
          case h_2 => exact unverifying_throw nofun
      case h_2 =>
          refine (c.unverified_resolve name pointer).lift.bind
            fun decl => ?_
          cases decl with
          | classType d => exact unverifying_throw nofun
          | strategy d =>
              exact (unverified_ofTypeError _).lift.bind fun _ =>
                (unverified_ofTypeError _).lift.bind fun _ =>
                  (unverifying_emit _).bind fun _ =>
                    unverifying_pure _
  | int n ty =>
      refine (c.unverified_lower ty).lift.bind fun target => ?_
      split
      case h_5 =>
          exact (unverifying_emit _).bind fun _ =>
            (unverifying_emit _).bind fun _ => unverifying_pure _
      all_goals
        exact (unverifying_emit _).bind fun _ => unverifying_pure _
  | str value ty =>
      exact (unverifying_emit _).bind fun _ => unverifying_pure _
  | object ty =>
      exact (unverifying_emit _).bind fun _ => unverifying_pure _
  | _ => exact unverifying_throw nofun

theorem unverifying_boxedArgs
    (env : Environment)
    (es : List Exp) :
    Unverifying (c.boxedArgs env es) := by
  induction es with
  | nil => exact unverifying_pure _
  | cons e es ih =>
      exact (c.unverifying_immediate env e).bind fun _ =>
        (unverifying_emit _).bind fun _ => ih

theorem unverified_asStrategy
    (ty : ValueType)
    (what : String) :
    Unverified (ty.asStrategy what) := by
  unfold ValueType.asStrategy
  split
  case h_1 => exact unverified_ok _
  case h_2 => exact nofun

theorem unverifying_application
    (env : Environment)
    (function : Exp)
    (args : List Exp) :
    Unverifying (c.application env function args) := by
  have hSupply : ∀ s : StrategyType,
      Unverified (s.supply args.length) := by
    intro s
    unfold StrategyType.supply
    split
    case h_1 => exact unverified_ok _
    case h_2 => exact nofun
  refine (unverified_asStrategy _ _).lift.bind fun s =>
    (hSupply s).lift.bind fun rest =>
      (c.unverifying_immediate env function).bind fun ty => ?_
  by_cases hNone : args.isEmpty = true
  · rw [if_pos hNone]
    exact unverifying_pure _
  · rw [if_neg hNone]
    have hText : Unverified
        (c.applyDescriptor args.length rest.arity) :=
      (unverified_strategyInterface _ _).bind fun _ =>
        unverified_ofTypeError _
    exact (c.unverified_lower _).lift.bind fun _ =>
      (unverifying_coerce _ _).bind fun _ =>
        (c.unverifying_boxedArgs env args).bind fun _ =>
          (unverified_strategyInterface _ _).lift.bind fun _ =>
            hText.lift.bind fun _ =>
              (unverifying_emit _).bind fun _ =>
                (c.unverified_lower _).lift

theorem unverifying_evaluation
    (env : Environment)
    (ctx : Local)
    (strategy input : Exp)
    (ty : ValueType) :
    Unverifying (c.evaluation env ctx strategy input ty) := by
  refine (unverified_asStrategy _ _).lift.bind fun s => ?_
  by_cases hSome : s.arity ≠ 0
  · rw [if_pos hSome]
    exact unverifying_throw nofun
  · rw [if_neg hSome]
    exact (c.unverifying_immediate env strategy).bind fun _ =>
      (c.unverified_lower _).lift.bind fun _ =>
        (unverifying_coerce _ _).bind fun _ =>
          (unverifying_emit _).bind fun _ =>
            (c.unverifying_immediate env input).bind fun _ =>
              (unverifying_emit _).bind fun _ =>
                (unverified_strategyInterface _ _).lift.bind
                  fun _ =>
                  (unverified_ofTypeError _).lift.bind fun _ =>
                    (unverifying_emit _).bind fun _ =>
                      (c.unverified_lower _).lift.bind fun _ =>
                        (unverifying_emit _).bind fun _ =>
                          unverifying_pure _

theorem unverifying_compound
    (env : Environment)
    (ctx : Local)
    (e : Exp) :
    Unverifying (c.compound env ctx e) := by
  cases e with
  | apply function args ty =>
      exact c.unverifying_application env function args
  | eval strategy input ty =>
      exact c.unverifying_evaluation env ctx strategy input ty
  | seq first second ty => exact unverifying_throw nofun
  | letIn name bound body ty => exact unverifying_throw nofun
  | _ =>
      unfold compound
      exact c.unverifying_immediate env _

theorem unverifying_spine
    (ctx : Local)
    (e : Exp)
    (env : Environment) :
    Unverifying (c.spine ctx e env) := by
  induction e, env using Context.spine.induct with
  | case1 name bound body ty env ih =>
      rw [spine]
      exact (c.unverified_lower _).lift.bind fun _ =>
        (c.unverifying_compound env ctx bound).bind fun _ =>
          (unverifying_coerce _ _).bind fun _ =>
            (unverifying_emit _).bind fun l =>
              (unverifying_emit _).bind fun _ => ih l
  | case2 e env hOther =>
      rw [spine]
      · exact c.unverifying_compound env ctx e
      · exact hOther

theorem unverifying_assemble
    (e : Exp)
    (env : Environment)
    (ctx : Local) :
    Unverifying (c.assemble e env ctx) := by
  unfold assemble
  cases e.isNormal with
  | false =>
      exact unverifying_get.bind fun _ => unverifying_throw nofun
  | true => exact c.unverifying_spine ctx e env

------------------------------------------------------------
-- Members
------------------------------------------------------------

theorem unverifying_parameter
    (position : Nat)
    (missing : Mismatch) :
    Unverifying (parameter position missing) := by
  refine unverifying_get.bind fun m => ?_
  cases m.parameter? position with
  | none => exact unverifying_throw nofun
  | some l => exact unverifying_pure l

theorem unverifying_nullChecks
    (className : String)
    (position : Nat)
    (params : List (String × Ty)) :
    Unverifying (nullChecks className position params) := by
  induction params generalizing position with
  | nil => exact unverifying_pure _
  | cons param params ih =>
      rcases param with ⟨name, ty⟩
      rw [nullChecks]
      by_cases hNull : ty.isReference = true
      · rw [if_pos hNull]
        exact (unverifying_parameter position _).bind fun _ =>
          (unverifying_emit _).bind fun _ => ih _
      · rw [if_neg hNull]
        exact ih _

theorem unverifying_bindParams
    (env : Environment)
    (position : Nat)
    (names : List String) :
    Unverifying (bindParams env position names) := by
  induction names generalizing env position with
  | nil => exact unverifying_pure _
  | cons name names ih =>
      exact (unverifying_parameter position _).bind fun _ => ih _ _

theorem unverifying_loadParams
    (position : Nat)
    (tys : List Ty) :
    Unverifying (loadParams position tys) := by
  induction tys generalizing position with
  | nil => exact unverifying_pure _
  | cons ty tys ih =>
      exact (unverifying_parameter position _).bind fun _ =>
        (unverifying_emit _).bind fun _ =>
          (unverifying_emit _).bind fun _ => ih _

theorem unverifying_method
    {α : Type}
    {body : Assembling α}
    (access : UInt16)
    (name : String)
    (signature : MethodSig)
    (paramNames : List String)
    (hBody : Unverifying body) :
    Unverifying
      (Generating.method access name signature paramNames body) := by
  refine unverifying_get.bind fun d => ?_
  cases d.method access name signature paramNames with
  | error e => exact unverifying_throw nofun
  | ok m =>
      exact (hBody m).lift.bind fun _ =>
        (unverifying_draft _).bind fun _ => unverifying_pure _

theorem unverifying_simpleMethod
    (access : UInt16)
    (name : String)
    (signature : MethodSig)
    (body : Emitter Unit) :
    Unverifying
      (Generating.simpleMethod access name signature body) :=
  unverifying_method access name signature [] (unverifying_emit body)

theorem unverifying_writeEval
    (decl : StrategyDecl)
    (definition : StrategyDef)
    (ty : Ty) :
    Unverifying (c.writeEval decl definition ty) := by
  have hSignature : Unverified (c.evalSignature decl.ty) :=
    (c.unverified_lowerAll _).bind fun _ =>
      (c.unverified_lower _).bind fun _ =>
        (c.unverified_lower _).bind fun _ => unverified_ok _
  refine hSignature.lift.bind fun signature =>
    (unverifying_method _ _ _ _ ?_).bind fun _ =>
      unverifying_pure _
  exact (unverifying_nullChecks _ _ _).bind fun _ =>
    (unverifying_parameter 0 _).bind fun _ =>
      (unverifying_bindParams _ _ _).bind fun _ =>
        (c.unverifying_assemble _ _ _).bind fun _ =>
          (unverifying_coerce _ _).bind fun _ => unverifying_emit _

theorem unverifying_writeBridge
    (decl : StrategyDecl)
    (owner : String)
    (eval : MethodSig) :
    Unverifying (writeBridge decl owner eval) := by
  refine (unverified_ofTypeError _).lift.bind fun descriptor =>
    (unverified_ofTypeError _).lift.bind fun erased => ?_
  by_cases hSame : erased = descriptor
  · rw [if_pos hSame]
    exact unverifying_pure _
  · rw [if_neg hSame]
    refine unverifying_method _ _ _ _ ?_
    exact (unverifying_emit _).bind fun _ =>
      (unverifying_loadParams _ _).bind fun _ =>
        (unverifying_emit _).bind fun _ =>
          (unverifying_emit _).bind fun _ => unverifying_emit _

theorem unverifying_writeMembers
    (decl : StrategyDecl)
    (definition : StrategyDef)
    (interface owner : String)
    (ty : Ty) :
    Unverifying
      (c.writeMembers decl definition interface owner ty) := by
  have hSignature : Unverified (c.classSignature decl) :=
    (c.unverified_lower _).bind fun _ => unverified_ok _
  exact (unverifying_draft _).bind fun _ =>
    hSignature.lift.bind fun _ =>
      (unverifying_draft _).bind fun _ =>
        (unverifying_draft _).bind fun _ =>
          (unverifying_simpleMethod _ _ _ _).bind fun _ =>
            (unverifying_simpleMethod _ _ _ _).bind fun _ =>
              (c.unverifying_writeEval _ _ _).bind fun _ =>
                (unverifying_writeBridge _ _ _).bind fun _ =>
                  (unverifying_simpleMethod _ _ _ _).bind fun _ =>
                    (unverifying_simpleMethod _ _ _ _).bind
                      fun _ => unverifying_simpleMethod _ _ _ _

------------------------------------------------------------
-- Classes
------------------------------------------------------------

/- Making a class finds no fault in it. -/
theorem unverified_generate
    (decl : StrategyDecl)
    (definition : StrategyDef) :
    Unverified (c.generate decl definition) := by
  have hFits : Unverified (checkDefinition decl definition) := by
    unfold checkDefinition
    dsimp only
    split
    case isTrue => exact nofun
    case isFalse =>
        split
        case isTrue => exact nofun
        case isFalse => exact unverified_ok _
  refine hFits.bind fun _ =>
    (unverified_ofTypeError _).bind fun owner =>
      (unverified_strategyInterface _ _).bind fun interface => ?_
  split
  case h_1 => exact nofun
  case h_2 draft _ =>
      refine (c.unverifying_writeMembers _ _ _ _ _ draft).bind
        fun r => ?_
      dsimp only
      split
      case h_1 => exact nofun
      case h_2 => exact unverified_ok _

end Context

end Stratagem

import Stratagem.Proofs.Assembly.Classes
import Stratagem.Proofs.Assembly.Verified

/-
  What is written as permitted is accepted.

  A class is made by calls one after another, which may fail,
  and each of its methods by steps.  If the steps of a method
  are permitted, each local that is loaded is as wide as what
  is known of it, and the end is not reached, then the method,
  if it can be finished, has a body that passes the check with
  the constant pool that the class has in the end.

  Key definitions include:
    * `ClassDraft.Call`
    * `ClassDraft.Grown`

  Main declarations:
    * `ClassDraft.Call.grown`
    * `ClassDraft.accepted_of_permitted`
-/

namespace Stratagem

open Jvm

------------------------------------------------------------
-- Calls
------------------------------------------------------------

/-
  One call that works on a class.  A method may be given up,
  and one whose end fails leaves its constants, too.
-/
inductive ClassDraft.Call : ClassDraft → ClassDraft → Prop
  | addConstant
      (c : ClassDraft)
      {k : Constant}
      (hShort : k.IsShort) :
      Call c (outcomeOf (Drafting.pooled (Pooling.add k)) c).2
  | addInterface
      (c : ClassDraft)
      (name : String) :
      Call c (outcomeOf (Drafting.addInterface name) c).2
  | setSignature
      (c : ClassDraft)
      (signature : String) :
      Call c (outcomeOf (Drafting.setSignature signature) c).2
  | addField
      (c : ClassDraft)
      (access : UInt16)
      (name : String)
      (ty : Ty) :
      Call c (outcomeOf (Drafting.addField access name ty) c).2
  | giveUp
      {c : ClassDraft}
      {access : UInt16}
      {name : String}
      {signature : MethodSig}
      {paramNames : List String}
      {m : MethodDraft}
      (hMethod : c.method access name signature paramNames = .ok m)
      (steps : List Step) :
      Call c { c with pool := (Step.runAll steps m).pool }
  | close
      {c : ClassDraft}
      {access : UInt16}
      {name : String}
      {signature : MethodSig}
      {paramNames : List String}
      {m m' : MethodDraft}
      {result : Except ClassFileError Member}
      (hMethod : c.method access name signature paramNames = .ok m)
      (steps : List Step)
      (hFinish : outcomeOf MethodDraft.finish (Step.runAll steps m) =
        (result, m')) :
      Call c (outcomeOf (Drafting.close m' result) c).2

namespace ClassDraft

/- A class became another with more constants and methods. -/
structure Grown
    (c c' : ClassDraft) : Prop where
  pool : c.pool.Grown c'.pool
  methods : ∀ m ∈ c.methods, m ∈ c'.methods

variable {c c₁ c' : ClassDraft}

theorem Grown.refl
    (c : ClassDraft) :
    c.Grown c :=
  ⟨.refl _, fun _ hIn => hIn⟩

theorem Grown.trans
    (hFirst : c.Grown c₁)
    (hNext : c₁.Grown c') :
    c.Grown c' :=
  ⟨hFirst.pool.trans hNext.pool, fun m hIn =>
    hNext.methods m (hFirst.methods m hIn)⟩

/- A constant is added first. -/
theorem grown_pooled
    {α : Type}
    {x : Pooling α}
    {f : α → ClassDraft → ClassDraft}
    (hGrows : x.Grows)
    (hPool : ∀ a c, (f a c).pool = c.pool)
    (hMethods : ∀ a c, (f a c).methods = c.methods)
    (c : ClassDraft) :
    c.Grown (outcomeOf (Drafting.pooled x >>= fun a =>
      modify (f a)) c).2 := by
  have hGrown := hGrows c.pool
  have hPooled : outcomeOf (Drafting.pooled x) c =
      ((outcomeOf x c.pool).1,
        { c with pool := (outcomeOf x c.pool).2 }) := rfl
  rw [outcomeOf_bind, hPooled]
  rcases hRun : outcomeOf x c.pool with ⟨result, p⟩
  rw [hRun] at hGrown
  cases result with
  | error e => exact ⟨hGrown, fun _ hIn => hIn⟩
  | ok a =>
      refine ⟨?_, ?_⟩
      · change c.pool.Grown (f a { c with pool := p }).pool
        rw [hPool]
        exact hGrown
      · intro m hIn
        change m ∈ (f a { c with pool := p }).methods
        rw [hMethods]
        exact hIn

theorem grows_fieldParts
    (access : UInt16)
    (name : String)
    (ty : Ty) :
    (Drafting.fieldParts access name ty).Grows := by
  refine (Pooling.grows_text name).bind fun _ => ?_
  cases ty.descriptor with
  | error e => exact Pooling.grows_throw _
  | ok text =>
      exact (Pooling.grows_text text).bind fun _ =>
        (Pooling.grows_mapM _
          MethodDraft.grows_signatureAttribute).bind fun _ =>
            Pooling.grows_pure _

/- The steps of a method only add to the pool of its class. -/
theorem grown_steps
    {access : UInt16}
    {name : String}
    {signature : MethodSig}
    {paramNames : List String}
    {m : MethodDraft}
    (hMethod : c.method access name signature paramNames = .ok m)
    (steps : List Step) :
    c.pool.Grown (Step.runAll steps m).pool := by
  rcases header_method hMethod with ⟨-, -, -, -, hPool⟩
  rw [← hPool]
  exact (Step.leads_runAll steps m).grown

theorem grown_close
    {m : MethodDraft}
    {result : Except ClassFileError Member}
    (hGrown : c.pool.Grown m.pool) :
    c.Grown (outcomeOf (Drafting.close m result) c).2 := by
  cases result with
  | error e => exact ⟨hGrown, fun _ hIn => hIn⟩
  | ok member =>
      exact ⟨hGrown, fun _ hIn => Array.mem_push_of_mem _ hIn⟩

/- Whatever a call does, constants and methods stay. -/
theorem Call.grown
    (hCall : Call c c') :
    c.Grown c' := by
  cases hCall with
  | addConstant hShort =>
      exact ⟨Pooling.grows_add hShort c.pool, fun _ hIn => hIn⟩
  | addInterface name =>
      refine grown_pooled (Pooling.grows_classRef name) ?_ ?_ c
      · intro i c
        split <;> rfl
      · intro i c
        split <;> rfl
  | setSignature signature =>
      refine grown_pooled
        (MethodDraft.grows_signatureAttribute signature) ?_ ?_ c
      · exact fun _ _ => rfl
      · exact fun _ _ => rfl
  | addField access name ty =>
      refine grown_pooled (grows_fieldParts access name ty) ?_ ?_ c
      · exact fun _ _ => rfl
      · exact fun _ _ => rfl
  | giveUp hMethod steps =>
      exact ⟨grown_steps hMethod steps, fun _ hIn => hIn⟩
  | @close _ _ _ _ m _ _ hMethod steps hFinish =>
      have hEnd :=
        (MethodDraft.safe_finish (Step.runAll steps m)).grown
      rw [hFinish] at hEnd
      exact grown_close ((grown_steps hMethod steps).trans hEnd)

theorem grown_of_calls
    (hCalls : Relation.ReflTransGen Call c c') :
    c.Grown c' := by
  induction hCalls with
  | refl => exact .refl c
  | tail _ hCall ih => exact ih.trans hCall.grown

------------------------------------------------------------
-- Acceptance
------------------------------------------------------------

/-
  The steps of a method are permitted, what is known of each
  local that is loaded is as wide as the local, and the end is
  not reached.  If the method can be finished, it belongs to
  the class in the end, and its body passes the check with the
  constant pool that the class then has.
-/
theorem accepted_of_permitted
    {version access flags : UInt16}
    {className superName name : String}
    {signature : MethodSig}
    {paramNames : List String}
    {c₀ c c₁ c' : ClassDraft}
    {m m' : MethodDraft}
    {steps : List Step}
    {member : Member}
    (hStart : start version access className superName = .ok c₀)
    (hBefore : Relation.ReflTransGen Call c₀ c)
    (hMethod : c.method flags name signature paramNames = .ok m)
    (hPermitted : Step.Always Step.Permitted steps m)
    (hFaithful : Step.Always Step.Faithful steps m)
    (hEnd : (Step.runAll steps m).reachable = false)
    (hFinish : Yields MethodDraft.finish (Step.runAll steps m)
      member m')
    (hClose : Yields (Drafting.close m' (.ok member)) c () c₁)
    (hAfter : Relation.ReflTransGen Call c₁ c') :
    member ∈ c'.methods ∧
      ∃ (is : List Instruction) (body : CodeAttribute)
        (codeName : UInt16) (rest : List Attribute),
        (Step.runAll steps m).resolve = .ok is ∧
        body.code = is.flatMap Instruction.encode ∧
        body.maxStack = (Step.runAll steps m).maxStack ∧
        body.maxLocals = (Step.runAll steps m).maxLocals ∧
        member.attributes =
          { name := codeName, info := body.encode } :: rest ∧
        c'.pool.textAt? codeName = some "Code" ∧
        body.verify c'.pool = .ok () := by
  have hPool : c.pool.Sound :=
    (grown_of_calls hBefore).pool.sound (finished_start hStart).pool
  rcases (measured_method hPool hMethod).runAll hPermitted
    hFaithful with ⟨ks, hMeasured⟩
  rcases MethodDraft.finish_spec hMeasured.sound hFinish with
    ⟨is, body, codeName, rest, hResolve, hCode, hStack, hLocals,
      hAttributes, hName⟩
  have hFinal := grown_of_calls hAfter
  cases hClose
  have hLater : m'.pool.Within c'.pool := hFinal.pool.within
  have hWithin : (Step.runAll steps m).pool.Within c'.pool :=
    (Keeps.of_yields MethodDraft.safe_finish
      hFinish).grown.within.trans hLater
  refine ⟨hFinal.methods member Array.mem_push_self, is, body,
    codeName, rest, hResolve, hCode, hStack, hLocals, hAttributes,
    hLater.textAt? hName, ?_⟩
  exact hMeasured.verify hEnd hResolve hWithin hCode hStack hLocals

end ClassDraft

------------------------------------------------------------
-- Samples
------------------------------------------------------------

/- A method without parameters and without a result. -/
def plainMethod : MethodSig :=
  { result := .primitive .void, params := [] }

/- A wide local is loaded, unless a jump leads behind it. -/
def skippedLocal : List Step :=
  [.newLabel,
    .newLocal "x" (.primitive .long),
    .lconst 1,
    .store ⟨0⟩,
    .aconstNull,
    .ifnull ⟨0⟩,
    .load ⟨0⟩,
    .drop,
    .bind ⟨0⟩,
    .returnValue (.primitive .void)]

/- These steps are permitted, and their code is accepted. -/
theorem skippedLocal_accepted :
    ∃ (c c₁ : ClassDraft) (m m' : MethodDraft) (member : Member)
      (body : CodeAttribute) (codeName : UInt16)
      (rest : List Attribute),
      ClassDraft.start 52 1 "A" "java/lang/Object" = .ok c ∧
      c.method 8 "m" plainMethod [] = .ok m ∧
      Yields MethodDraft.finish (Step.runAll skippedLocal m)
        member m' ∧
      Yields (Drafting.close m' (.ok member)) c () c₁ ∧
      member.attributes =
        { name := codeName, info := body.encode } :: rest ∧
      body.verify c₁.pool = .ok () := by
  have hDraft : ∃ c m,
      ClassDraft.start 52 1 "A" "java/lang/Object" = .ok c ∧
      c.method 8 "m" plainMethod [] = .ok m ∧
      Step.Always Step.Permitted skippedLocal m ∧
      Step.Always Step.Faithful skippedLocal m ∧
      (Step.runAll skippedLocal m).reachable = false ∧
      (outcomeOf MethodDraft.finish
        (Step.runAll skippedLocal m)).1.isOk = true :=
    ⟨_, _, rfl, rfl, by decide +kernel⟩
  rcases hDraft with ⟨c, m, hStart, hMethod, hPermitted, hFaithful,
    hEnd, hOk⟩
  rcases exists_yields_of_isOk hOk with ⟨member, m', hFinish⟩
  rcases ClassDraft.accepted_of_permitted hStart .refl hMethod
    hPermitted hFaithful hEnd hFinish rfl .refl with
    ⟨-, _, body, codeName, rest, -, -, -, -, hAttributes, -, hVerify⟩
  exact ⟨c, _, m, m', member, body, codeName, rest, hStart, hMethod,
    hFinish, rfl, hAttributes, hVerify⟩

/-
  The local has one slot, as references do, but what is known
  of it is a wide value.
-/
def wideArgument : List Step :=
  [.newLocal "x" (.argument (.invariant (.primitive .long))),
    .load ⟨0⟩,
    .drop,
    .returnValue (.primitive .void)]

/- The code of these steps: `aload_0`, `pop2` and `return`. -/
def wideArgumentCode : List Instruction :=
  [⟨0, .loadShort .ref 0, false, []⟩,
    ⟨1, .pop2, false, []⟩,
    ⟨2, .returnVoid, false, []⟩]

/-
  It does not suffice that the steps are permitted: more is
  dropped here than was loaded.  The load fills one slot, and
  two are taken.
-/
theorem wideArgument_rejected :
    ∃ (c c₁ : ClassDraft) (m m' : MethodDraft) (member : Member)
      (body : CodeAttribute) (codeName : UInt16)
      (rest : List Attribute),
      ClassDraft.start 49 1 "A" "java/lang/Object" = .ok c ∧
      c.method 8 "m" plainMethod [] = .ok m ∧
      Step.Always Step.Permitted wideArgument m ∧
      (Step.runAll wideArgument m).reachable = false ∧
      Yields MethodDraft.finish (Step.runAll wideArgument m)
        member m' ∧
      Yields (Drafting.close m' (.ok member)) c () c₁ ∧
      member.attributes =
        { name := codeName, info := body.encode } :: rest ∧
      c₁.pool.textAt? codeName = some "Code" ∧
      body.verify c₁.pool ≠ .ok () := by
  have hDraft : ∃ c m,
      ClassDraft.start 49 1 "A" "java/lang/Object" = .ok c ∧
      c.method 8 "m" plainMethod [] = .ok m ∧
      (Step.runAll wideArgument m).resolve.toOption.map
          (List.flatMap Instruction.encode) =
        some (wideArgumentCode.flatMap Instruction.encode) ∧
      Step.Always Step.Permitted wideArgument m ∧
      (Step.runAll wideArgument m).reachable = false ∧
      (outcomeOf MethodDraft.finish
        (Step.runAll wideArgument m)).1.isOk = true :=
    ⟨_, _, rfl, rfl, by decide +kernel⟩
  rcases hDraft with ⟨c, m, hStart, hMethod, hBytes, hPermitted,
    hEnd, hOk⟩
  rcases exists_yields_of_isOk hOk with ⟨member, m', hFinish⟩
  have hSound := (Step.leads_runAll wideArgument m).sound
    (measured_method (ClassDraft.finished_start hStart).pool
      hMethod).sound
  rcases MethodDraft.finish_spec hSound hFinish with
    ⟨is, body, codeName, rest, hIs, hCode, -, -, hAttributes, hName⟩
  refine ⟨c, _, m, m', member, body, codeName, rest, hStart, hMethod,
    hPermitted, hEnd, hFinish, rfl, hAttributes, hName, ?_⟩
  intro hVerify
  have hLaid : LaidOut 0 wideArgumentCode :=
    ⟨rfl, by trivial, rfl, by trivial, rfl, by trivial, trivial⟩
  have hDecode : decodeCode body.code = .ok wideArgumentCode := by
    rw [hIs] at hBytes
    rw [hCode, Option.some.inj hBytes]
    exact hLaid.decodeCode_encode
  have hSafe := CodeAttribute.depthSafe_of_verify hVerify hDecode
  have hMore : 0 + 1 < wideArgumentCode.length := by decide
  have hLoad : DepthStep m'.pool wideArgumentCode (0, 0) (1, 1) :=
    .next rfl rfl (Nat.zero_le 0) rfl hMore
  rcases hSafe.safe 1 1 (.single hLoad) with
    ⟨i, pops, pushes, hAt, hEffect, hEnough, -⟩
  cases hAt
  cases hEffect
  exact absurd hEnough (by decide)

end Stratagem

import Mathlib.Data.List.Forall2
import Stratagem.Proofs.Assembly.Calls

/-
  Types of values around calls and conversions.

  Key definitions include:
    * `MemberRef.Takes`
    * `Pushes`
    * `Turns`

  Main declarations:
    * `Jvm.MethodSig.takes`
    * `Pushes.callStatic`
    * `Pushes.callMethod`
    * `turns_cast`
    * `turns_box`
    * `turns_unbox`
-/

namespace Stratagem

open Jvm

------------------------------------------------------------
-- Values of Types
------------------------------------------------------------

namespace Jvm.VType

variable {v w : VType} {t : Ty}

@[simp] theorem ofTy_top
    (name : String)
    (args : List Ty) :
    ofTy (.object (.top name args)) = .object name := by
  simp [ofTy, ClassTy.internalName, ClassTy.renderName]

@[simp] theorem ofTy_ofClass
    (name : String) :
    ofTy (.ofClass name) = .object name :=
  ofTy_top name []

theorem isAssignableTo_self
    (v : VType) :
    v.isAssignableTo v = true := by
  simp [isAssignableTo]

theorem isAssignableTo_object
    (hReference : v.isReference = true) :
    v.isAssignableTo (.object "java/lang/Object") = true := by
  have hObject : VType.object "java/lang/Object" = anyObject := rfl
  rw [hObject]
  simp [isAssignableTo, hReference]

/- The values of a type that is no primitive are references. -/
theorem exists_object
    (hValue : t.isValue = true)
    (hOther : t.isPrimitive = false) :
    ∃ name, ofTy t = .object name := by
  cases t with
  | primitive p => cases hOther
  | array t =>
      unfold ofTy
      split <;> exact ⟨_, rfl⟩
  | object c => exact ⟨_, rfl⟩
  | «variable» x => exact ⟨_, rfl⟩
  | argument a => cases hValue

theorem isReference_of_object
    {name : String}
    (hAssign : v.isAssignableTo (.object name) = true) :
    v.isReference = true := by
  simp only [isAssignableTo, Bool.or_eq_true, beq_iff_eq,
    Bool.and_eq_true] at hAssign
  rcases hAssign with rfl | ⟨hReference, -⟩
  · rfl
  · exact hReference

theorem isReference_of_isAssignableTo
    (hValue : t.isValue = true)
    (hOther : t.isPrimitive = false)
    (hAssign : v.isAssignableTo (ofTy t) = true) :
    v.isReference = true := by
  rcases exists_object hValue hOther with ⟨name, hTy⟩
  rw [hTy] at hAssign
  exact isReference_of_object hAssign

theorem family?_of_isAssignableTo
    (hValue : t.isValue = true)
    (hAssign : v.isAssignableTo (ofTy t) = true) :
    v.family? = some (Family.ofTy t) := by
  rw [← family?_ofTy hValue]
  simp only [isAssignableTo, Bool.or_eq_true, beq_iff_eq,
    Bool.and_eq_true] at hAssign
  rcases hAssign with rfl | ⟨hReference, hObject⟩
  · rfl
  · rw [hObject]
    cases v <;> simp [isReference] at hReference <;> rfl

theorem isInitialized_of_isAssignableTo
    (hValue : t.isValue = true)
    (hAssign : v.isAssignableTo (ofTy t) = true) :
    v.isInitialized = true := by
  simp only [isAssignableTo, Bool.or_eq_true, beq_iff_eq,
    Bool.and_eq_true] at hAssign
  rcases hAssign with rfl | ⟨hReference, -⟩
  · cases hPrimitive : t.isPrimitive with
    | true =>
        cases t with
        | primitive p => cases p <;> first | rfl | cases hValue
        | _ => cases hPrimitive
    | false =>
        rcases exists_object hValue hPrimitive with ⟨name, hTy⟩
        rw [hTy]
        rfl
  · cases v <;> simp [isReference] at hReference <;> rfl

theorem slots_of_isReference
    (hReference : v.isReference = true) :
    v.slots = 1 := by
  cases v <;> simp [isReference] at hReference <;> rfl

theorem isInitialized_of_isReference
    (hReference : v.isReference = true) :
    v.isInitialized = true := by
  cases v <;> simp [isReference] at hReference <;> rfl

end Jvm.VType

------------------------------------------------------------
-- Calls
------------------------------------------------------------

/- A method takes values of types and gives one of a type. -/
def MemberRef.Takes
    (r : MemberRef)
    (params : List VType)
    (result : VType) : Prop :=
  ∃ ts t, r.callTypes? = some (ts, t) ∧
    ts.map VType.ofTy = params ∧ t.isValue = true ∧
    VType.ofTy t = result

/- A method takes and gives what its signature says. -/
theorem Jvm.MethodSig.takes
    {m : MethodSig}
    {r : MemberRef}
    (hParams : ∀ t ∈ m.params, t.Legible ∧ t.isValue = true)
    (hResult : m.result.Legible)
    (hValue : m.result.isValue = true)
    (hText : m.descriptor = .ok r.descriptor) :
    r.Takes (m.params.map VType.ofTy) (.ofTy m.result) := by
  rcases MethodSig.parse_descriptor
      (fun t hIn => (hParams t hIn).1) hResult with
    ⟨d, params, result, hPrinted, -, hReads, hTys, hValues, hResultValue, -,
      hTy⟩
  rw [hText] at hPrinted
  cases hPrinted
  have hAll : params.all Ty.isValue = true := by
    rw [hValues, List.all_eq_true]
    exact fun t hIn => (hParams t hIn).2
  refine ⟨params, result, ?_, hTys, ?_, hTy⟩
  · unfold MemberRef.callTypes?
    rw [hReads]
    simp [Except.toOption, hAll, hResultValue, hValue]
  · rw [hResultValue, hValue]

namespace Action

variable {frame : MethodFrame} {s : TypeState}
variable {r : MemberRef} {params : List VType} {result : VType}

/- Values that may stand where types are asked for. -/
def Fit
    (vs ws : List VType) : Prop :=
  List.Forall₂ (fun v w => v.isAssignableTo w = true) vs ws

/- Arguments that fit are taken off, the last one first. -/
theorem popArgs_args
    {vs ws : List VType}
    (rest : List VType)
    (hFit : Fit vs ws) :
    popArgs ws.reverse (vs.reverse ++ rest) = some rest := by
  have hMore : ∀ {vs ws : List VType} (ws' stack : List VType),
      Fit vs ws →
      popArgs (ws ++ ws') (vs ++ stack) = popArgs ws' stack := by
    intro vs ws ws' stack hAll
    induction hAll with
    | nil => rfl
    | cons hOne _ ih =>
        simp only [List.cons_append, popArgs, hOne, if_true]
        exact ih
  have hBack := hMore [] rest (List.forall₂_reverse_iff.mpr hFit)
  rw [List.append_nil] at hBack
  exact hBack

/- A call without a receiver. -/
theorem check_static
    {vs rest : List VType}
    (hTakes : r.Takes params result)
    (hFit : Fit vs params)
    (hStack : s.stack = vs.reverse ++ rest) :
    (Action.invoke .static r).check frame s =
      some ({ s with stack := rest }.push result) := by
  rcases hTakes with ⟨ts, t, hTypes, rfl, hValue, rfl⟩
  have hArgs := popArgs_args rest hFit
  rw [← hStack] at hArgs
  simp [check, call, hTypes, hArgs, popReceiver, hValue]

/- A call of a method of an object. -/
theorem check_method
    {kind : CallKind}
    {vs rest : List VType}
    {receiver : VType}
    (hKind : kind ≠ .static)
    (hName : r.name ≠ "<init>")
    (hTakes : r.Takes params result)
    (hFit : Fit vs params)
    (hReceiver : receiver.isAssignableTo (.object r.owner) = true)
    (hStack : s.stack = vs.reverse ++ receiver :: rest) :
    (Action.invoke kind r).check frame s =
      some ({ s with stack := rest }.push result) := by
  rcases hTakes with ⟨ts, t, hTypes, rfl, hValue, rfl⟩
  have hArgs := popArgs_args (receiver :: rest) hFit
  rw [← hStack] at hArgs
  simp [check, call, hTypes, hArgs, popReceiver, hValue, hKind,
    hName, popArgs, hReceiver]

end Action

------------------------------------------------------------
-- Pushed Values
------------------------------------------------------------

/-
  Code that leaves values on the stack, the last one on top,
  and the slots as they were.
-/
structure Pushes
    (frame : MethodFrame)
    (s : TypeState)
    (as : List Action)
    (vs : List VType)
    (s' : TypeState) : Prop where
  passes : Passes frame 65535 s as s'
  slots : s'.slots = s.slots
  stack : s'.stack = vs.reverse ++ s.stack

namespace Pushes

variable {frame : MethodFrame} {s s₁ s' : TypeState}
variable {as bs : List Action} {vs ws : List VType}
variable {v result : VType}

theorem refl
    (frame : MethodFrame)
    (s : TypeState) :
    Pushes frame s [] [] s :=
  ⟨rfl, rfl, rfl⟩

theorem trans
    (hFirst : Pushes frame s as vs s₁)
    (hNext : Pushes frame s₁ bs ws s') :
    Pushes frame s (as ++ bs) (vs ++ ws) s' := by
  refine ⟨hFirst.passes.append hNext.passes, ?_, ?_⟩
  · rw [hNext.slots, hFirst.slots]
  · rw [hNext.stack, hFirst.stack, List.reverse_append,
      List.append_assoc]

theorem height
    (hPushes : Pushes frame s as vs s') :
    s'.height = s.height + VType.totalSlots vs := by
  unfold TypeState.height
  rw [hPushes.stack, VType.totalSlots_append,
    VType.totalSlots_reverse, Nat.add_comm]

/- One action that pushes a value. -/
theorem one
    {a : Action}
    (hCheck : a.check frame s = some (s.push v))
    (hLow : s.height + v.slots ≤ 65535)
    (hGoesOn : a.isTerminator = false)
    (hPlain : a.isJump = false) :
    Pushes frame s [a] [v] (s.push v) := by
  refine ⟨⟨s.push v, hCheck, ?_, hGoesOn, hPlain, rfl⟩, rfl, rfl⟩
  rw [TypeState.height_push]
  exact hLow

/- A call that replaces what was pushed by its result. -/
theorem call
    {kind : CallKind}
    {r : MemberRef}
    (hPushes : Pushes frame s as vs s₁)
    (hCheck : (Action.invoke kind r).check frame s₁ =
      some ({ s₁ with stack := s.stack }.push result))
    (hLow : s.height + 2 ≤ 65535) :
    Pushes frame s (as ++ [.invoke kind r]) [result]
      ({ s₁ with stack := s.stack }.push result) := by
  have hSlots := result.slots_le
  refine ⟨hPushes.passes.append
    ⟨_, hCheck, ?_, rfl, rfl, rfl⟩, hPushes.slots, rfl⟩
  rw [TypeState.height_push]
  change s.height + _ ≤ _
  omega

theorem callStatic
    {r : MemberRef}
    {params : List VType}
    (hPushes : Pushes frame s as vs s₁)
    (hTakes : r.Takes params result)
    (hFit : Action.Fit vs params)
    (hLow : s.height + 2 ≤ 65535) :
    ∃ s', Pushes frame s (as ++ [.invoke .static r]) [result] s' :=
  ⟨_, hPushes.call
    (Action.check_static hTakes hFit hPushes.stack) hLow⟩

theorem callMethod
    (kind : CallKind)
    {r : MemberRef}
    {params : List VType}
    (hPushes : Pushes frame s as (v :: vs) s₁)
    (hKind : kind ≠ .static)
    (hName : r.name ≠ "<init>")
    (hTakes : r.Takes params result)
    (hFit : Action.Fit vs params)
    (hReceiver : v.isAssignableTo (.object r.owner) = true)
    (hLow : s.height + 2 ≤ 65535) :
    ∃ s', Pushes frame s (as ++ [.invoke kind r]) [result] s' := by
  have hStack := hPushes.stack
  rw [List.reverse_cons, List.append_assoc] at hStack
  exact ⟨_, hPushes.call (Action.check_method hKind hName hTakes
    hFit hReceiver hStack) hLow⟩

end Pushes

------------------------------------------------------------
-- Constructions
------------------------------------------------------------

section Constructions

variable {frame : MethodFrame} {s : TypeState}

theorem pushes_literals
    (frame : MethodFrame)
    (s : TypeState)
    (ls : List Literal)
    (hLow : s.height + VType.totalSlots (ls.map Literal.vtype) ≤
      65535) :
    Pushes frame s (ls.map .push) (ls.map Literal.vtype)
      { s with
        stack := (ls.map Literal.vtype).reverse ++ s.stack } := by
  induction ls generalizing s with
  | nil => exact .refl frame s
  | cons l ls ih =>
      rw [List.map_cons, VType.totalSlots_cons] at hLow
      have hHeight := s.height_push l.vtype
      have hRest := ih (s.push l.vtype) (by omega)
      refine ⟨⟨s.push l.vtype, rfl, by omega, rfl, rfl,
        ?_⟩, rfl, rfl⟩
      have hStack : (ls.map Literal.vtype).reverse ++
          (s.push l.vtype).stack =
            ((l :: ls).map Literal.vtype).reverse ++ s.stack := by
        simp [TypeState.push]
      rw [← hStack]
      exact hRest.passes

theorem TypeState.replace_push
    (s : TypeState)
    (old new : VType) :
    (s.push old).replace old new = (s.replace old new).push new := by
  unfold replace push
  dsimp only
  rw [List.map_cons, if_pos rfl]

theorem replace_of_fresh
    {offset : Nat}
    (new : VType)
    (hSlots : ∀ k, s.slots k ≠ .uninit offset)
    (hStack : ∀ v ∈ s.stack, v ≠ .uninit offset) :
    s.replace (.uninit offset) new = s := by
  rcases s with ⟨slots, stack, made⟩
  unfold TypeState.replace
  dsimp only at hSlots hStack ⊢
  congr 1
  · funext k
    exact if_neg (hSlots k)
  · conv => rhs; rw [← List.map_id stack]
    exact List.map_congr_left fun v hv => if_neg (hStack v hv)

/-
  A new object whose constructor takes constants.  The state
  between knows what was made at the offset.
-/
theorem pushes_construct
    {offset : Nat}
    {name d : String}
    {ls : List Literal}
    {params : List Ty}
    (hSlots : ∀ k, s.slots k ≠ .uninit offset)
    (hStack : ∀ v ∈ s.stack, v ≠ .uninit offset)
    (hTypes : (MemberRef.ofCall .special name "<init>"
      d).callTypes? = some (params, .primitive .void))
    (hFit : Action.Fit (ls.map Literal.vtype)
      (params.map VType.ofTy))
    (hLow : s.height + 2 +
      VType.totalSlots (ls.map Literal.vtype) ≤ 65535) :
    ∃ s', Pushes frame s
      ([.new offset name, .dup] ++ ls.map .push ++
        [.invoke .special (.ofCall .special name "<init>" d)])
      [.object name] s' := by
  let u : VType := .uninit offset
  let r : TypeState := { s with
    made := fun o => if o = offset then some name else s.made o }
  have hNew : (Action.new offset name).check frame s =
      some (r.push u) :=
    if_neg fun hIn => hStack _ hIn rfl
  have hDup : Action.dup.check frame (r.push u) =
      some ((r.push u).push u) := rfl
  have hHeight : r.height = s.height := rfl
  have hHeight₁ : (r.push u).height = s.height + 1 :=
    r.height_push u
  have hHeight₂ : ((r.push u).push u).height = s.height + 2 := by
    rw [TypeState.height_push, hHeight₁]
    rfl
  have hArgs := pushes_literals frame ((r.push u).push u) ls
    (by omega)
  have hPop : Action.popArgs (params.map VType.ofTy).reverse
      ((ls.map Literal.vtype).reverse ++
        ((r.push u).push u).stack) =
        some ((r.push u).push u).stack :=
    Action.popArgs_args _ hFit
  have hReceiver : Action.popReceiver frame .special
      (.ofCall .special name "<init>" d) ((r.push u).push u) =
        some (r.push (.object name)) := by
    have hMade : (r.push u).made offset = some name := if_pos rfl
    have hConstruct : Action.construct frame name
        ((r.push u).push u) =
          some ((r.push u).replace u (.object name)) :=
      if_pos hMade
    have hSame : r.replace u (.object name) = r :=
      replace_of_fresh _ hSlots hStack
    rw [TypeState.replace_push, hSame] at hConstruct
    exact hConstruct
  have hCall : (Action.invoke .special
      (.ofCall .special name "<init>" d)).check frame
        { (r.push u).push u with
          stack := (ls.map Literal.vtype).reverse ++
            ((r.push u).push u).stack } =
      some (r.push (.object name)) := by
    rw [Action.check, Action.call, hTypes]
    change (Action.popArgs _ _).bind _ = _
    rw [hPop]
    change (Action.popReceiver frame .special _
      ((r.push u).push u)).bind _ = _
    rw [hReceiver]
    rfl
  have hStart : Passes frame 65535 s [.new offset name, .dup]
      ((r.push u).push u) :=
    ⟨r.push u, hNew, by omega, rfl, rfl, _, hDup, by omega, rfl,
      rfl, rfl⟩
  refine ⟨_, (hStart.append hArgs.passes).append
    ⟨_, hCall, ?_, rfl, rfl, rfl⟩, rfl, rfl⟩
  rw [TypeState.height_push]
  change s.height + 1 ≤ 65535
  omega

/- A new object whose constructor takes nothing. -/
theorem pushes_new
    {offset : Nat}
    (frame : MethodFrame)
    (name : String)
    (hSlots : ∀ k, s.slots k ≠ .uninit offset)
    (hStack : ∀ v ∈ s.stack, v ≠ .uninit offset)
    (hLow : s.height + 2 ≤ 65535) :
    ∃ s', Pushes frame s
      [.new offset name, .dup,
        .invoke .special (.ofCall .special name "<init>" "()V")]
      [.object name] s' := by
  have hTypes : (MemberRef.ofCall .special name "<init>"
      "()V").callTypes? = some ([], .primitive .void) := by
    unfold MemberRef.callTypes? MemberRef.ofCall
    dsimp only
    rfl
  have hFit : Action.Fit (List.map Literal.vtype [])
      (List.map VType.ofTy []) := .nil
  exact pushes_construct hSlots hStack hTypes hFit hLow

end Constructions

------------------------------------------------------------
-- Conversions
------------------------------------------------------------

/-
  Code that turns a value on top of the stack into another,
  with so much room on the stack for either.
-/
def Turns
    (frame : MethodFrame)
    (room : Nat)
    (v : VType)
    (as : List Action)
    (w : VType) : Prop :=
  ∀ s : TypeState, s.height + room ≤ 65535 →
    Passes frame 65535 (s.push v) as (s.push w)

theorem Turns.refl
    (frame : MethodFrame)
    (room : Nat)
    (v : VType) :
    Turns frame room v [] v :=
  fun _ _ => rfl

theorem Turns.trans
    {frame : MethodFrame}
    {room : Nat}
    {u v w : VType}
    {as bs : List Action}
    (hFirst : Turns frame room u as v)
    (hNext : Turns frame room v bs w) :
    Turns frame room u (as ++ bs) w :=
  fun s hLow => (hFirst s hLow).append (hNext s hLow)

theorem Turns.mono
    {frame : MethodFrame}
    {room room' : Nat}
    {v w : VType}
    {as : List Action}
    (hTurns : Turns frame room v as w)
    (hRoom : room ≤ room') :
    Turns frame room' v as w :=
  fun s hLow => hTurns s (by omega)

theorem Turns.one
    {frame : MethodFrame}
    {room : Nat}
    {v w : VType}
    {a : Action}
    (hCheck : ∀ s : TypeState,
      a.check frame (s.push v) = some (s.push w))
    (hRoom : w.slots ≤ room)
    (hGoesOn : a.isTerminator = false)
    (hPlain : a.isJump = false) :
    Turns frame room v [a] w := by
  intro s hLow
  refine ⟨s.push w, hCheck s, ?_, hGoesOn, hPlain, rfl⟩
  rw [TypeState.height_push]
  omega

theorem Pushes.turn
    {frame : MethodFrame}
    {room : Nat}
    {s s₁ : TypeState}
    {v w : VType}
    {as bs : List Action}
    (hPushes : Pushes frame s as [v] s₁)
    (hTurns : Turns frame room v bs w)
    (hLow : s.height + room ≤ 65535) :
    ∃ s', Pushes frame s (as ++ bs) [w] s' := by
  have hState : s₁ = { s₁ with stack := s.stack }.push v := by
    rcases s₁ with ⟨slots, stack, made⟩
    have hStack := hPushes.stack
    dsimp only at hStack
    rw [hStack]
    rfl
  have hPasses := hPushes.passes
  have hMore := hTurns { s₁ with stack := s.stack } hLow
  rw [← hState] at hMore
  exact ⟨_, hPasses.append hMore, hPushes.slots, rfl⟩

section Conversions

variable {frame : MethodFrame} {t : Ty} {v : VType}

/- A reference is cast to a type that is no primitive. -/
theorem turns_cast
    (hValue : t.isValue = true)
    (hOther : t.isPrimitive = false)
    (hReference : v.isReference = true) :
    ∃ w, Turns frame 1 v (castActions t) w ∧
      w.isAssignableTo (.ofTy t) = true := by
  rcases VType.exists_object hValue hOther with ⟨name, hTy⟩
  unfold castActions
  rw [hTy]
  dsimp only
  split
  case isTrue hObject =>
      subst hObject
      exact ⟨v, .refl frame 1 v,
        VType.isAssignableTo_object hReference⟩
  case isFalse =>
      refine ⟨.object name, .one ?_ (Nat.le_refl 1) rfl rfl,
        VType.isAssignableTo_self _⟩
      intro s
      simp [Action.check, hReference]

/- The wrappers of primitives have names that can be read. -/
theorem acceptsName_of_boxClass?
    {p : Primitive}
    {name : String}
    (hClass : p.boxClass? = some name) :
    AcceptsName name := by
  cases p <;> cases hClass <;> exact ⟨_, rfl⟩

theorem exists_boxClass?
    {p : Primitive}
    (hValue : (Ty.primitive p).isValue = true) :
    ∃ name, p.boxClass? = some name := by
  cases p <;> first | exact ⟨_, rfl⟩ | cases hValue

theorem isValue_of_boxClass?
    {p : Primitive}
    {name : String}
    (hClass : p.boxClass? = some name) :
    (Ty.primitive p).isValue = true := by
  cases p <;> first | rfl | cases hClass

theorem takes_wrapping
    {p : Primitive}
    {name : String}
    (hClass : p.boxClass? = some name) :
    (MemberRef.wrapping p name).Takes [.ofTy (.primitive p)]
      (.object name) := by
  let m : MethodSig :=
    { result := .ofClass name, params := [.primitive p] }
  rw [← VType.ofTy_ofClass name]
  refine MethodSig.takes (m := m) ?_ ?_ rfl ?_
  · intro t hIn
    cases List.mem_singleton.mp hIn
    exact ⟨Ty.legible_primitive p, isValue_of_boxClass? hClass⟩
  · exact Ty.legible_ofClass [] (acceptsName_of_boxClass? hClass)
  · have hText : m.descriptor = .ok ("(" ++
        String.join [String.singleton p.letter] ++ ")" ++
          ("L" ++ name ++ ";")) := by
      simp only [m, MethodSig.descriptor, descriptor_ofClass,
        descriptor_primitive, List.mapM_cons, List.mapM_nil]
      rfl
    rw [hText, Except.ok.injEq, ← String.toList_inj]
    simp [MemberRef.wrapping, MemberRef.ofCall]

theorem takes_unwrapping
    {p : Primitive}
    {name : String}
    (hClass : p.boxClass? = some name) :
    (MemberRef.unwrapping p name).Takes []
      (.ofTy (.primitive p)) := by
  let m : MethodSig :=
    { result := .primitive p, params := [] }
  refine MethodSig.takes (m := m) nofun ?_ ?_ ?_
  · exact Ty.legible_primitive p
  · exact isValue_of_boxClass? hClass
  · simp [m, MethodSig.descriptor, descriptor_primitive,
      MemberRef.unwrapping, MemberRef.ofCall]

/- A value becomes an object. -/
theorem turns_box
    (hValue : t.isValue = true)
    (hAssign : v.isAssignableTo (.ofTy t) = true) :
    ∃ w, Turns frame 1 v (boxActions t) w ∧ w.isReference = true ∧
      w.isAssignableTo (.ofTy t.asReference) = true := by
  cases hPrimitive : t.isPrimitive with
  | false =>
      have hNothing : boxActions t = [] ∧ t.asReference = t := by
        cases t <;> first | exact ⟨rfl, rfl⟩ | cases hPrimitive
      rw [hNothing.1, hNothing.2]
      exact ⟨v, .refl frame 1 v,
        VType.isReference_of_isAssignableTo hValue hPrimitive
          hAssign, hAssign⟩
  | true =>
      cases t with
      | primitive p =>
          rcases exists_boxClass? hValue with ⟨name, hClass⟩
          simp only [boxActions, hClass]
          have hWrapper : (Ty.primitive p).asReference =
              .ofClass name := by
            simp [Ty.asReference, Ty.boxed?, hClass]
          rw [hWrapper, VType.ofTy_ofClass]
          refine ⟨.object name, .one ?_ (Nat.le_refl 1) rfl rfl,
            rfl, VType.isAssignableTo_self _⟩
          intro s
          exact Action.check_static (takes_wrapping hClass)
            (.cons hAssign .nil) rfl
      | _ => cases hPrimitive

/- An object becomes a value of a type. -/
theorem turns_unbox
    (hValue : t.isValue = true)
    (hReference : v.isReference = true) :
    ∃ w, Turns frame t.width v (unboxActions t) w ∧
      w.isAssignableTo (.ofTy t) = true := by
  have hPos := t.width_pos
  cases hPrimitive : t.isPrimitive with
  | false =>
      have hCast : unboxActions t = castActions t := by
        cases t <;> first | rfl | cases hPrimitive
      rcases turns_cast hValue hPrimitive hReference with
        ⟨w, hTurns, hAssign⟩
      rw [hCast]
      exact ⟨w, hTurns.mono hPos, hAssign⟩
  | true =>
      cases t with
      | primitive p =>
          rcases exists_boxClass? hValue with ⟨name, hClass⟩
          simp only [unboxActions, hClass]
          have hCast : Turns frame (Ty.primitive p).width v
              [.checkcast name] (.object name) := by
            refine .one ?_ hPos rfl rfl
            intro s
            simp [Action.check, hReference]
          have hWidth : (VType.ofTy (.primitive p)).slots =
              (Ty.primitive p).width :=
            VType.slots_of_family? (VType.family?_ofTy hValue)
          have hCall : Turns frame (Ty.primitive p).width
              (.object name)
              [.invoke .virtual (.unwrapping p name)]
              (.ofTy (.primitive p)) := by
            refine .one ?_ (Nat.le_of_eq hWidth) rfl rfl
            intro s
            refine Action.check_method (by decide) ?_
              (takes_unwrapping hClass) .nil
              (VType.isAssignableTo_self _) rfl
            change p.keyword ++ "Value" ≠ "<init>"
            cases p <;> decide
          exact ⟨_, hCast.trans hCall, VType.isAssignableTo_self _⟩
      | _ => cases hPrimitive

end Conversions

end Stratagem

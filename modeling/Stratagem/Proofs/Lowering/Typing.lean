import Stratagem.Proofs.Lowering.Names

/-
  The code of expressions is typed.

  While a body runs, each local holds a value of its type.
  The code of an expression leaves one more value on the
  stack, and that value may stand where the type of the
  expression is asked for.

  Key definitions include:
    * `Ready`

  Main declarations:
    * `Coerces.turns`
    * `ImmediateCode.pushes`
    * `CompoundCode.pushes`
    * `SpineCode.passes`
-/

namespace Stratagem

open Jvm

------------------------------------------------------------
-- Locals
------------------------------------------------------------

/-
  Each local holds a value of its type, no value reaches
  beyond the slots of the locals, and every object that was
  made has seen its constructor.
-/
structure Ready
    (ts : List Ty)
    (s : TypeState) : Prop where
  values : ∀ t ∈ ts, t.isValue = true
  fits : ∀ (i : Nat) (t : Ty), ts[i]? = some t →
    (s.slots (Ty.slotOf ts i)).isAssignableTo (.ofTy t) = true
  inside : ∀ k, (s.slots k).slots = 2 → k + 2 ≤ Ty.widths ts
  slots : ∀ k o, s.slots k ≠ .uninit o
  stack : ∀ v ∈ s.stack, ∀ o, v ≠ .uninit o

theorem Jvm.VType.ne_uninit
    {v : VType}
    (hInitialized : v.isInitialized = true)
    (o : Nat) :
    v ≠ .uninit o := by
  rintro rfl
  cases hInitialized

theorem Jvm.VType.slots_eq_width
    {v : VType}
    {t : Ty}
    (hValue : t.isValue = true)
    (hAssign : v.isAssignableTo (.ofTy t) = true) :
    v.slots = t.width :=
  VType.slots_of_family?
    (VType.family?_of_isAssignableTo hValue hAssign)

namespace Ready

variable {frame : MethodFrame} {ts : List Ty} {s s' : TypeState}
variable {as : List Action} {vs : List VType} {t : Ty}

/- Values on the stack change nothing. -/
theorem pushes
    (hReady : Ready ts s)
    (hPushes : Pushes frame s as vs s')
    (hValues : ∀ v ∈ vs, v.isInitialized = true) :
    Ready ts s' := by
  refine ⟨hReady.values, ?_, ?_, ?_, ?_⟩
  · rw [hPushes.slots]
    exact hReady.fits
  · rw [hPushes.slots]
    exact hReady.inside
  · rw [hPushes.slots]
    exact hReady.slots
  · intro v hIn o
    rw [hPushes.stack] at hIn
    rcases List.mem_append.mp hIn with hNew | hOld
    · exact VType.ne_uninit (hValues v (List.mem_reverse.mp hNew)) o
    · exact hReady.stack v hOld o

/-
  A new local is behind all others.  A slot of an older one
  keeps what it holds, and what any slot holds is the value or
  was there before.
-/
theorem store
    {v : VType}
    (hReady : Ready ts s)
    (hValue : t.isValue = true)
    (hAssign : v.isAssignableTo (.ofTy t) = true) :
    Ready (ts ++ [t]) (s.store (Ty.widths ts) v) := by
  have hWidth := VType.slots_eq_width hValue hAssign
  have hOld : ∀ k, k < Ty.widths ts →
      (s.store (Ty.widths ts) v).slots k = s.slots k := by
    intro k hLess
    unfold TypeState.store
    dsimp only
    rw [if_neg (by omega), if_neg (by omega)]
    split
    case isTrue hReach =>
        have hInside := hReady.inside k hReach.2
        omega
    case isFalse => rfl
  have hHere : (s.store (Ty.widths ts) v).slots (Ty.widths ts) =
      v := if_pos rfl
  have hAny : ∀ k w,
      (s.store (Ty.widths ts) v).slots k = w →
        k = Ty.widths ts ∧ w = v ∨ w = .top ∨ w = s.slots k := by
    intro k w hSlot
    unfold TypeState.store at hSlot
    dsimp only at hSlot
    split at hSlot
    case isTrue hAt => exact Or.inl ⟨hAt, hSlot.symm⟩
    case isFalse =>
        split at hSlot
        case isTrue => exact Or.inr (Or.inl hSlot.symm)
        case isFalse =>
            split at hSlot
            case isTrue => exact Or.inr (Or.inl hSlot.symm)
            case isFalse => exact Or.inr (Or.inr hSlot.symm)
  refine ⟨?_, ?_, ?_, ?_, hReady.stack⟩
  · intro u hIn
    rcases List.mem_append.mp hIn with hBefore | hNew
    · exact hReady.values u hBefore
    · cases List.mem_singleton.mp hNew
      exact hValue
  · intro i u hAt
    by_cases hLess : i < ts.length
    · rw [List.getElem?_append_left hLess] at hAt
      have hEnd := Ty.slotOf_add_width_le_widths hAt
      have hPos := u.width_pos
      rw [Ty.slotOf_append _ (Nat.le_of_lt hLess),
        hOld _ (by omega)]
      exact hReady.fits i u hAt
    · rw [List.getElem?_append_right (by omega)] at hAt
      rcases List.getElem?_eq_some_iff.mp hAt with ⟨hFirst, hu⟩
      have hIndex : i = ts.length := by
        rw [List.length_singleton] at hFirst
        omega
      subst hIndex
      simp only [Nat.sub_self, List.getElem_cons_zero] at hu
      subst hu
      rw [Ty.slotOf_append _ (Nat.le_refl _), Ty.slotOf_length,
        hHere]
      exact hAssign
  · intro k hTwo
    rw [Ty.widths_append]
    rcases hAny k _ rfl with ⟨rfl, hv⟩ | hTop | hSame
    · rw [hv, hWidth] at hTwo
      simp only [Ty.widths_cons, Ty.widths_nil]
      omega
    · rw [hTop] at hTwo
      cases hTwo
    · rw [hSame] at hTwo
      have hInside := hReady.inside k hTwo
      omega
  · intro k o hUninit
    rcases hAny k _ hUninit with ⟨-, hv⟩ | hTop | hSame
    · exact VType.ne_uninit
        (VType.isInitialized_of_isAssignableTo hValue hAssign) o
        hv.symm
    · cases hTop
    · exact hReady.slots k o hSame.symm

/- A local is loaded. -/
theorem load
    {i : Nat}
    (frame : MethodFrame)
    (hReady : Ready ts s)
    (hAt : ts[i]? = some t)
    (hLow : s.height + t.width ≤ 65535) :
    ∃ v, Pushes frame s [.load (.ofTy t) (Ty.slotOf ts i)] [v]
        (s.push v) ∧ v.isAssignableTo (.ofTy t) = true := by
  have hFits := hReady.fits i t hAt
  have hValue := hReady.values t (List.mem_of_getElem? hAt)
  refine ⟨_, .one ?_ ?_ rfl rfl, hFits⟩
  · exact if_pos (VType.family?_of_isAssignableTo hValue hFits)
  · rw [VType.slots_eq_width hValue hFits]
    exact hLow

end Ready

------------------------------------------------------------
-- Conversions
------------------------------------------------------------

/- A value of one type becomes a value of the other. -/
theorem Coerces.turns
    {frame : MethodFrame}
    {source target : Ty}
    {as : List Action}
    {v : VType}
    (hCoerces : Coerces source target as)
    (hSource : source.isValue = true)
    (hTarget : target.isValue = true)
    (hAssign : v.isAssignableTo (.ofTy source) = true) :
    ∃ w, Turns frame 2 v as w ∧
      w.isAssignableTo (.ofTy target) = true := by
  cases hCoerces with
  | same hDescriptor hSame =>
      rw [Ty.ofTy_eq_of_descriptor hDescriptor hSame] at hAssign
      exact ⟨v, .refl frame 2 v, hAssign⟩
  | cast hOther hOther' =>
      rcases turns_cast hTarget hOther'
          (VType.isReference_of_isAssignableTo hSource hOther
            hAssign) with
        ⟨w, hCast, hResult⟩
      exact ⟨w, hCast.mono (by omega), hResult⟩
  | box hPrimitive hOther =>
      rcases turns_box hSource hAssign with
        ⟨w, hBox, hReference, -⟩
      rcases turns_cast hTarget hOther hReference with
        ⟨w', hCast, hResult⟩
      exact ⟨w', (hBox.trans hCast).mono (by omega), hResult⟩
  | unbox hOther hPrimitive =>
      rcases turns_unbox hTarget
          (VType.isReference_of_isAssignableTo hSource hOther
            hAssign) with
        ⟨w, hUnbox, hResult⟩
      exact ⟨w, hUnbox.mono target.width_le, hResult⟩

------------------------------------------------------------
-- Operands
------------------------------------------------------------

section Operands

variable {c : Context} {ts : List Ty} {env : Environment}
variable {frame : MethodFrame} {s : TypeState}

/- Operands have types of values. -/
theorem ImmediateCode.isValue
    {e : Exp}
    {as : List Action}
    {t : Ty}
    (hCode : ImmediateCode c ts env e as t)
    (hReady : Ready ts s) :
    t.isValue = true := by
  cases hCode with
  | bound hName hLocal =>
      exact hReady.values t (List.mem_of_getElem? hLocal)
  | @int n ty target hType =>
      have hValue := Context.isValue_of_lower hType
      cases target with
      | primitive p => exact hValue
      | _ => rfl
  | _ => rfl

theorem vtype_literalOf
    {p : Primitive}
    (n : Int32)
    (hValue : (Ty.primitive p).isValue = true) :
    (literalOf n (.primitive p)).vtype =
      VType.ofTy (.primitive p) := by
  cases p <;> first | rfl | cases hValue

/- A literal as a value of a type. -/
theorem pushes_literal
    {t : Ty}
    (n : Int32)
    (hValue : t.isValue = true)
    (hLow : s.height + 2 ≤ 65535) :
    ∃ v s', Pushes frame s (literalActions n t) [v] s' ∧
      v.isAssignableTo (.ofTy (literalTy t)) = true := by
  have hPush : ∀ l : Literal,
      Pushes frame s [.push l] [l.vtype] (s.push l.vtype) := by
    intro l
    have hSlots := l.vtype.slots_le
    exact .one rfl (by omega) rfl rfl
  have hWrapped : ∃ v s',
      Pushes frame s
        (.push (.int n) :: boxActions (.primitive .int)) [v] s' ∧
      v.isAssignableTo
        (.ofTy (Ty.asReference (.primitive .int))) = true := by
    rcases turns_box (t := .primitive .int) rfl
        (VType.isAssignableTo_self _) with
      ⟨w, hTurns, -, hAssign⟩
    rcases (hPush (.int n)).turn hTurns (by omega) with
      ⟨s', hPushes⟩
    exact ⟨w, s', hPushes, hAssign⟩
  cases t with
  | primitive p =>
      refine ⟨_, _, hPush _, ?_⟩
      rw [vtype_literalOf n hValue]
      exact VType.isAssignableTo_self _
  | _ => exact hWrapped

/- The one object of a strategy. -/
theorem takes_getInstance
    {owner : String}
    (hAccepts : AcceptsName owner) :
    (MemberRef.getInstance owner).Takes [] (.object owner) := by
  let m : MethodSig := { result := .ofClass owner, params := [] }
  rw [← VType.ofTy_ofClass owner]
  refine MethodSig.takes (m := m) nofun
    (Ty.legible_ofClass [] hAccepts) rfl ?_
  simp only [m, MethodSig.descriptor, descriptor_ofClass,
    List.mapM_nil, MemberRef.getInstance, MemberRef.ofCall]
  change Except.ok _ = Except.ok _
  rw [Except.ok.injEq, ← String.toList_inj]
  simp

variable (frame)

/- The code of a variable or a constant pushes a value of it. -/
theorem ImmediateCode.pushes
    {e : Exp}
    {as : List Action}
    {t : Ty}
    (hCode : ImmediateCode c ts env e as t)
    (hNames : NamesAccepted c.config c.symbols.decls)
    (hReady : Ready ts s)
    (hLow : s.height + 2 ≤ 65535) :
    ∃ v s', Pushes frame s as [v] s' ∧
      v.isAssignableTo (.ofTy t) = true := by
  cases hCode with
  | bound hName hLocal =>
      have hWidth := t.width_le
      rcases hReady.load frame hLocal (by omega) with
        ⟨v, hPushes, hAssign⟩
      exact ⟨v, _, hPushes, hAssign⟩
  | global hName hDecl hCall =>
      have hAccepts := hNames.strategies _
        (Context.mem_of_resolve hDecl)
      rcases (Pushes.refl frame s).callStatic
          (takes_getInstance hAccepts) .nil hLow with
        ⟨s', hPushes⟩
      refine ⟨_, s', hPushes, ?_⟩
      rw [Context.strategyClass, VType.ofTy_ofClass]
      exact VType.isAssignableTo_self _
  | int hType =>
      exact pushes_literal _ (Context.isValue_of_lower hType) hLow
  | str =>
      exact ⟨_, _, .one rfl (Nat.le_of_succ_le hLow) rfl rfl,
        VType.isAssignableTo_self _⟩
  | object =>
      rcases pushes_new frame "java/lang/Object"
          (fun k => hReady.slots k _)
          (fun v hIn => hReady.stack v hIn _) hLow with
        ⟨s', hPushes⟩
      exact ⟨_, s', hPushes, VType.isAssignableTo_self _⟩

/- A boxed operand is an object. -/
theorem ImmediateCode.pushes_boxed
    {e : Exp}
    {as : List Action}
    {t : Ty}
    (hCode : ImmediateCode c ts env e as t)
    (hNames : NamesAccepted c.config c.symbols.decls)
    (hReady : Ready ts s)
    (hLow : s.height + 2 ≤ 65535) :
    ∃ v s', Pushes frame s (as ++ boxActions t) [v] s' ∧
      v.isReference = true := by
  rcases hCode.pushes frame hNames hReady hLow with
    ⟨v, s₁, hPushes, hAssign⟩
  rcases turns_box (hCode.isValue hReady) hAssign with
    ⟨w, hTurns, hReference, -⟩
  rcases hPushes.turn hTurns (by omega) with ⟨s', hBoxed⟩
  exact ⟨w, s', hBoxed, hReference⟩

/- Operands are pushed as objects. -/
theorem ArgsCode.pushes
    {es : List Exp}
    {as : List Action}
    (hCode : ArgsCode c ts env es as)
    (hNames : NamesAccepted c.config c.symbols.decls)
    (hReady : Ready ts s)
    (hLow : s.height + es.length + 1 ≤ 65535) :
    ∃ vs s', Pushes frame s as vs s' ∧ vs.length = es.length ∧
      ∀ v ∈ vs, v.isReference = true := by
  induction hCode generalizing s with
  | nil => exact ⟨[], s, .refl frame s, rfl, nofun⟩
  | cons hFirst hRest ih =>
      rw [List.length_cons] at hLow
      rcases hFirst.pushes_boxed frame hNames hReady (by omega) with
        ⟨v, s₁, hOne, hReference⟩
      have hReady₁ := hReady.pushes hOne fun w hIn => by
        cases List.mem_singleton.mp hIn
        exact VType.isInitialized_of_isReference hReference
      have hHeight := hOne.height
      have hSlots := VType.slots_of_isReference hReference
      simp only [VType.totalSlots, List.foldr_cons,
        List.foldr_nil, hSlots] at hHeight
      rcases ih hReady₁ (by omega) with
        ⟨vs, s', hMore, hLength, hAll⟩
      refine ⟨v :: vs, s', hOne.trans hMore, ?_, ?_⟩
      · rw [List.length_cons, List.length_cons, hLength]
      · intro w hIn
        rcases List.mem_cons.mp hIn with rfl | hTail
        · exact hReference
        · exact hAll w hTail

end Operands

------------------------------------------------------------
-- Computations
------------------------------------------------------------

section Computations

variable {c : Context} {ts : List Ty} {env : Environment}
variable {ctx : Local} {frame : MethodFrame} {s : TypeState}

/- Objects may stand for parameters that are any objects. -/
theorem fit_objects
    {vs : List VType}
    {n : Nat}
    (hLength : vs.length = n)
    (hAll : ∀ v ∈ vs, v.isReference = true) :
    Action.Fit vs
      ((List.replicate n Known.object).map VType.ofTy) := by
  subst hLength
  induction vs with
  | nil => exact .nil
  | cons v vs ih =>
      refine .cons ?_ (ih fun w hIn =>
        hAll w (List.mem_cons_of_mem v hIn))
      rw [Known.object, VType.ofTy_ofClass]
      exact VType.isAssignableTo_object
        (hAll v List.mem_cons_self)

theorem legible_objects
    (n : Nat) :
    ∀ t ∈ List.replicate n Known.object,
      t.Legible ∧ t.isValue = true := by
  intro t hIn
  rw [(List.mem_replicate.mp hIn).2]
  exact ⟨Ty.legible_object, rfl⟩

/- The method that supplies arguments. -/
theorem takes_apply
    {owner d : String}
    {supplied residual : Nat}
    (hNames : NamesAccepted c.config c.symbols.decls)
    (hText : c.applyDescriptor supplied residual = .ok d) :
    ∃ interface,
      c.config.strategyInterface residual = .ok interface ∧
      (MemberRef.ofCall .interface owner "apply" d).Takes
        ((List.replicate supplied Known.object).map VType.ofTy)
        (.object interface) ∧
      supplied + 3 ≤ d.toList.length := by
  unfold Context.applyDescriptor at hText
  rcases ok_bind.mp hText with ⟨interface, hInterface, hSig⟩
  rw [ofTypeError_eq_ok] at hSig
  let m : MethodSig :=
    { result := .ofClass interface
      params := List.replicate supplied Known.object }
  have hLegible : (Ty.ofClass interface).Legible :=
    Ty.legible_ofClass [] (hNames.interfaces _ _ hInterface)
  refine ⟨interface, hInterface, ?_, ?_⟩
  · rw [← VType.ofTy_ofClass interface]
    exact MethodSig.takes (m := m) (legible_objects supplied)
      hLegible rfl hSig
  · rcases MethodSig.parse_descriptor (m := m)
        (fun t hIn => (legible_objects supplied t hIn).1)
        hLegible with
      ⟨d', _, _, hSig', hLength, -⟩
    rw [hSig] at hSig'
    cases hSig'
    simpa [m] using hLength

/- The method that runs a strategy without parameters. -/
theorem takes_eval
    {owner d : String}
    (hText : (Context.bridgeSignature 0).descriptor = .ok d) :
    (MemberRef.ofCall .interface owner "eval" d).Takes
      ((List.replicate 2 Known.object).map VType.ofTy)
      (.ofTy Known.object) :=
  MethodSig.takes (m := Context.bridgeSignature 0)
    (legible_objects 2) Ty.legible_object rfl hText

/- Computations have types of values. -/
theorem CompoundCode.isValue
    {e : Exp}
    {as : List Action}
    {t : Ty}
    (hCode : CompoundCode c ts env ctx e as t)
    (hReady : Ready ts s) :
    t.isValue = true := by
  cases hCode with
  | immediate hCode => exact hCode.isValue hReady
  | applyNone hFunction => exact hFunction.isValue hReady
  | apply _ _ _ _ _ _ _ _ hResult =>
      exact Context.isValue_of_lower hResult
  | eval _ _ _ _ _ _ _ _ hResult =>
      exact Context.isValue_of_lower hResult

variable (frame)

/- The object that a call is for. -/
theorem pushes_receiver
    {e : Exp}
    {as bs : List Action}
    {t target : Ty}
    {f : StrategyType}
    {owner : String}
    (hCode : ImmediateCode c ts env e as t)
    (hTarget : c.strategyTy f = .ok target)
    (hOwner : c.config.strategyInterface f.arity = .ok owner)
    (hCoerce : Coerces t target bs)
    (hNames : NamesAccepted c.config c.symbols.decls)
    (hReady : Ready ts s)
    (hLow : s.height + 2 ≤ 65535) :
    ∃ v s', Pushes frame s (as ++ bs) [v] s' ∧
      v.isAssignableTo (.object owner) = true := by
  rcases hCode.pushes frame hNames hReady hLow with
    ⟨v, s₁, hPushes, hAssign⟩
  rcases hCoerce.turns (hCode.isValue hReady)
      (Context.isValue_of_lower hTarget) hAssign with
    ⟨w, hTurns, hReceiver⟩
  rcases hPushes.turn hTurns hLow with ⟨s', hTurned⟩
  rcases Context.strategyTy_eq hTarget with
    ⟨interface, args, hInterface, rfl⟩
  rw [hOwner] at hInterface
  cases hInterface
  rw [VType.ofTy_top] at hReceiver
  exact ⟨w, s', hTurned, hReceiver⟩

/-
  The code of a computation pushes its value.  What is called
  is pushed first, onto an empty stack.
-/
theorem CompoundCode.pushes
    {e : Exp}
    {as : List Action}
    {t : Ty}
    (hCode : CompoundCode c ts env ctx e as t)
    (hNames : NamesAccepted c.config c.symbols.decls)
    (hReady : Ready ts s)
    (hCtx : ts[ctx.index]? = some Context.contextTy)
    (hEmpty : s.height = 0) :
    ∃ v s', Pushes frame s as [v] s' ∧
      v.isAssignableTo (.ofTy t) = true := by
  have hLow : s.height + 2 ≤ 65535 := by omega
  have hObject : ∀ {v : VType} {name : String} {as s₁},
      Pushes frame s as [v] s₁ →
      v.isAssignableTo (.object name) = true →
        Ready ts s₁ ∧ s₁.height = 1 := by
    intro v name as s₁ hPushes hAssign
    have hReference := VType.isReference_of_object hAssign
    refine ⟨hReady.pushes hPushes fun w hIn => ?_, ?_⟩
    · cases List.mem_singleton.mp hIn
      exact VType.isInitialized_of_isReference hReference
    · rw [hPushes.height, hEmpty]
      simp [VType.totalSlots, VType.slots_of_isReference hReference]
  cases hCode with
  | immediate hCode => exact hCode.pushes frame hNames hReady hLow
  | applyNone hFunction =>
      exact hFunction.pushes frame hNames hReady hLow
  | @apply function args ty f rest as bs cs t target result owner d
      hSome hFunction hTarget hCoerce hArgs hOwner hText hCall
      hResult =>
      rcases pushes_receiver frame hFunction hTarget hOwner hCoerce
          hNames hReady hLow with
        ⟨v, s₁, hOne, hReceiver⟩
      rcases hObject hOne hReceiver with ⟨hReady₁, hHeight₁⟩
      rcases takes_apply hNames hText with
        ⟨interface, hInterface, hTakes, hLong⟩
      have hShort := hCall.short
      have hBytes := ModifiedUtf8.length_le_encode d
      rcases hArgs.pushes frame hNames hReady₁ (by omega) with
        ⟨vs, s₂, hMore, hLength, hAll⟩
      rcases (hOne.trans hMore).callMethod .interface (by decide)
          (by decide : "apply" ≠ "<init>") hTakes
          (fit_objects hLength hAll) hReceiver hLow with
        ⟨s', hPushes⟩
      refine ⟨_, s', hPushes, ?_⟩
      rcases Context.strategyTy_eq hResult with
        ⟨interface', params, hInterface', rfl⟩
      rw [hInterface] at hInterface'
      cases hInterface'
      rw [VType.ofTy_top]
      exact VType.isAssignableTo_self _
  | @eval strategy input ty f as bs cs t target context inputTy
      result owner d hArity hStrategy hTarget hCoerce hContext
      hInput hOwner hText hResult =>
      rw [← hArity] at hOwner
      rcases pushes_receiver frame hStrategy hTarget hOwner hCoerce
          hNames hReady hLow with
        ⟨v, s₁, hOne, hReceiver⟩
      rcases hObject hOne hReceiver with ⟨hReady₁, hHeight₁⟩
      rw [hCtx] at hContext
      cases hContext
      have hNarrow : Context.contextTy.width = 1 := rfl
      rcases hReady₁.load frame hCtx (by omega) with
        ⟨v₂, hTwo, hAssign₂⟩
      have hReference₂ := VType.isReference_of_isAssignableTo
        rfl rfl hAssign₂
      have hReady₂ := hReady₁.pushes hTwo fun w hIn => by
        cases List.mem_singleton.mp hIn
        exact VType.isInitialized_of_isReference hReference₂
      have hHeight₂ : (s₁.push v₂).height = 2 := by
        rw [TypeState.height_push, hHeight₁,
          VType.slots_of_isReference hReference₂]
      rcases hInput.pushes_boxed frame hNames hReady₂ (by omega) with
        ⟨v₃, s₃, hThree, hReference₃⟩
      have hAll : ∀ w ∈ [v₂, v₃], w.isReference = true := by
        intro w hIn
        simp only [List.mem_cons, List.not_mem_nil, or_false]
          at hIn
        rcases hIn with rfl | rfl
        · exact hReference₂
        · exact hReference₃
      have hPushed := (hOne.trans hTwo).trans hThree
      rw [← List.append_assoc] at hPushed
      rcases hPushed.callMethod .interface (by decide)
          (by decide : "eval" ≠ "<init>") (takes_eval hText)
          (fit_objects rfl hAll) hReceiver hLow with
        ⟨s₄, hCalled⟩
      rcases turns_unbox (Context.isValue_of_lower hResult)
          (by rfl : (VType.ofTy Known.object).isReference = true)
        with ⟨w, hTurns, hAssign⟩
      rcases hCalled.turn (hTurns.mono (Ty.width_le _)) hLow with
        ⟨s', hPushes⟩
      exact ⟨w, s', hPushes, hAssign⟩

/-
  The code of a body leaves its value as the only one on the
  stack.  Each binding adds a local that is ready: the value
  goes from the stack into it.
-/
theorem SpineCode.passes
    {e : Exp}
    {as : List Action}
    {us : List Ty}
    {t : Ty}
    (hCode : SpineCode c ctx ts env e as us t)
    (hNames : NamesAccepted c.config c.symbols.decls)
    (hReady : Ready ts s)
    (hCtx : ts[ctx.index]? = some Context.contextTy)
    (hEmpty : s.stack = []) :
    t.isValue = true ∧ ∃ v s', Passes frame 65535 s as s' ∧
      s'.stack = [v] ∧ v.isAssignableTo (.ofTy t) = true := by
  have hHeight : ∀ {s : TypeState}, s.stack = [] →
      s.height = 0 := by
    intro s hEmpty
    rw [TypeState.height, hEmpty]
    rfl
  induction hCode generalizing s with
  | @last ts env e as t hCode =>
      rcases hCode.pushes frame hNames hReady hCtx
          (hHeight hEmpty) with
        ⟨v, s', hPushes, hAssign⟩
      refine ⟨hCode.isValue hReady, v, s', hPushes.passes, ?_,
        hAssign⟩
      rw [hPushes.stack, hEmpty]
      rfl
  | @letIn ts us env name bound body ty as bs cs t source result
      hType hBound hCoerce hBody ih =>
      have hLow : s.height + 2 ≤ 65535 := by
        rw [hHeight hEmpty]
        omega
      have hValue := Context.isValue_of_lower hType
      rcases hBound.pushes frame hNames hReady hCtx
          (hHeight hEmpty) with
        ⟨v, s₁, hPushes, hAssign⟩
      rcases hCoerce.turns (hBound.isValue hReady) hValue hAssign
        with ⟨w, hTurns, hTarget⟩
      rcases hPushes.turn hTurns hLow with ⟨s₂, hTurned⟩
      have hReady₂ := hReady.pushes hTurned fun u hIn => by
        cases List.mem_singleton.mp hIn
        exact VType.isInitialized_of_isAssignableTo hValue hTarget
      let r : TypeState := { s₂ with stack := s.stack }
      have hState : s₂ = r.push w := by
        have hStack := hTurned.stack
        rcases s₂ with ⟨slots, stack, made⟩
        dsimp only at hStack
        rw [hStack]
        rfl
      have hStore : (Action.store (.ofTy t) (Ty.widths ts)).check
          frame s₂ = some (r.store (Ty.widths ts) w) := by
        rw [hState]
        exact if_pos
          ⟨VType.family?_of_isAssignableTo hValue hTarget,
            VType.isInitialized_of_isAssignableTo hValue hTarget⟩
      have hReadyAll : Ready (ts ++ [t])
          (r.store (Ty.widths ts) w) := by
        refine Ready.store ⟨hReady₂.values, hReady₂.fits,
          hReady₂.inside, hReady₂.slots, ?_⟩ hValue hTarget
        exact hReady.stack
      have hCtxAll : (ts ++ [t])[ctx.index]? =
          some Context.contextTy := by
        rcases List.getElem?_eq_some_iff.mp hCtx with ⟨hLess, -⟩
        rw [List.getElem?_append_left hLess, hCtx]
      rcases ih hReadyAll hCtxAll hEmpty with
        ⟨hResult, v', s', hRest, hEnd⟩
      have hStored : Passes frame 65535 s₂
          [.store (.ofTy t) (Ty.widths ts)]
          (r.store (Ty.widths ts) w) := by
        refine ⟨_, hStore, ?_, rfl, rfl, rfl⟩
        rw [TypeState.height_store]
        change s.height ≤ 65535
        omega
      exact ⟨hResult, v', s',
        (hTurned.passes.append hStored).append hRest, hEnd⟩

end Computations

end Stratagem

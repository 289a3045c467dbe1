import Stratagem.Proofs.Code.Action

/-
  What types the slots and the stack hold while code runs.

  The state of a method is known by the types of its slots and
  of its stack, and each action either leads to a next state
  or is rejected.  A value may stand where its own type is
  asked for, and an initialized reference also where any
  object is.

  Key definitions include:
    * `Jvm.VType.family?`
    * `Jvm.VType.isAssignableTo`
    * `TypeState`
    * `MethodFrame`
    * `Action.check`

  Main declarations:
    * `Action.effect?_of_check`
-/

namespace Stratagem

open Jvm

------------------------------------------------------------
-- Types of Values
------------------------------------------------------------

namespace Jvm

/- Types that values have. -/
def Ty.isValue : Ty → Bool
  | .primitive .void => false
  | .argument _ => false
  | _ => true

/- No value at all. -/
def Ty.isVoid : Ty → Bool
  | .primitive .void => true
  | _ => false

namespace VType

/- The instructions that handle a value; nothing has none. -/
def family? : VType → Option Family
  | .top => none
  | .int => some .int
  | .float => some .float
  | .long => some .long
  | .double => some .double
  | _ => some .ref

/- References to objects whose constructors ran, and null. -/
def isReference : VType → Bool
  | .null => true
  | .object _ => true
  | _ => false

/- Values that may be stored and handed over. -/
def isInitialized : VType → Bool
  | .top => false
  | .uninitThis => false
  | .uninit _ => false
  | _ => true

/- Whether a value may stand where another type is asked for. -/
def isAssignableTo
    (v w : VType) : Bool :=
  v == w || (v.isReference && w == anyObject)

theorem slots_of_family?
    {v : VType}
    {f : Family}
    (hFamily : v.family? = some f) :
    v.slots = f.slots := by
  cases v <;> simp [family?] at hFamily <;> subst hFamily <;> rfl

theorem slots_of_isAssignableTo
    {v w : VType}
    (hAssign : v.isAssignableTo w = true) :
    v.slots = w.slots := by
  simp only [isAssignableTo, Bool.or_eq_true, beq_iff_eq,
    Bool.and_eq_true] at hAssign
  rcases hAssign with rfl | ⟨hReference, rfl⟩
  · rfl
  · cases v <;> simp [isReference] at hReference <;> rfl

theorem family?_ofTy
    {t : Ty}
    (hValue : t.isValue = true) :
    (ofTy t).family? = some (Family.ofTy t) := by
  cases t with
  | primitive p => cases p <;> first | rfl | cases hValue
  | array t =>
      unfold ofTy
      split <;> rfl
  | object c => rfl
  | «variable» x => rfl
  | argument a => cases hValue

theorem slots_ofTy
    {t : Ty}
    (hValue : t.isValue = true) :
    (ofTy t).slots = t.slots := by
  rw [slots_of_family? (family?_ofTy hValue)]
  cases t with
  | primitive p => cases p <;> first | rfl | cases hValue
  | _ => rfl

@[simp] theorem totalSlots_cons
    (v : VType)
    (vs : List VType) :
    totalSlots (v :: vs) = v.slots + totalSlots vs :=
  rfl

@[simp] theorem totalSlots_append
    (vs ws : List VType) :
    totalSlots (vs ++ ws) = totalSlots vs + totalSlots ws := by
  induction vs with
  | nil => simp [totalSlots]
  | cons v vs ih =>
      rw [List.cons_append, totalSlots_cons, totalSlots_cons, ih,
        Nat.add_assoc]

theorem totalSlots_reverse
    (vs : List VType) :
    totalSlots vs.reverse = totalSlots vs := by
  induction vs with
  | nil => rfl
  | cons v vs ih =>
      rw [List.reverse_cons, totalSlots_append, ih,
        totalSlots_cons]
      simp [totalSlots, Nat.add_comm]

theorem totalSlots_map_ofTy
    {ts : List Ty}
    (hValues : ts.all Ty.isValue = true) :
    totalSlots (ts.map ofTy) = Ty.totalSlots ts := by
  induction ts with
  | nil => rfl
  | cons t ts ih =>
      simp only [List.all_cons, Bool.and_eq_true] at hValues
      rw [List.map_cons, totalSlots_cons, slots_ofTy hValues.1,
        ih hValues.2]
      rfl

end VType

end Jvm

------------------------------------------------------------
-- Members
------------------------------------------------------------

namespace MemberRef

/- The type of a field. -/
def fieldType?
    (m : MemberRef) : Option Ty :=
  (Ty.ofDescriptor m.descriptor).toOption.filter Ty.isValue

/- The types of parameters and result of a method. -/
def callTypes?
    (m : MemberRef) : Option (List Ty × Ty) :=
  (parseMethodDescriptor m.descriptor).toOption.filter
    fun (params, result) =>
      params.all Ty.isValue &&
        (result.isValue || result.isVoid)

theorem fieldSlots?_of_fieldType?
    {m : MemberRef}
    {t : Ty}
    (hType : m.fieldType? = some t) :
    m.fieldSlots? = some (VType.ofTy t).slots := by
  rcases Option.filter_eq_some_iff.mp hType with ⟨hTy, hValue⟩
  rw [fieldSlots?, hTy, Option.map_some, VType.slots_ofTy hValue]

theorem callSlots?_of_callTypes?
    {m : MemberRef}
    {params : List Ty}
    {result : Ty}
    (hTypes : m.callTypes? = some (params, result)) :
    m.callSlots? =
      some (VType.totalSlots (params.map VType.ofTy),
        if result.isValue then (VType.ofTy result).slots
        else 0) := by
  rcases Option.filter_eq_some_iff.mp hTypes with ⟨hTys, hOk⟩
  simp only [Bool.and_eq_true, Bool.or_eq_true] at hOk
  rcases hOk with ⟨hParams, hResult⟩
  rw [callSlots?, hTys, Option.map_some,
    VType.totalSlots_map_ofTy hParams]
  cases hValue : result.isValue with
  | true => simp [VType.slots_ofTy hValue]
  | false =>
      rw [hValue] at hResult
      cases result with
      | primitive p =>
          cases p <;> first | rfl | cases hValue
      | argument a =>
          rcases hResult with hTrue | hVoid
          · cases hTrue
          · cases hVoid
      | _ => cases hValue

end MemberRef

------------------------------------------------------------
-- States
------------------------------------------------------------

/-
  The types in the slots and on the stack, whose head is its
  top.  A slot that holds nothing has the type `top`, and so
  has the second slot of a value of two.  An object that was
  made is of the class known by its offset.
-/
structure TypeState where
  slots : Nat → VType
  stack : List VType
  made : Nat → Option String := fun _ => none

namespace TypeState

/- Slots that the stack takes. -/
def height
    (s : TypeState) : Nat :=
  VType.totalSlots s.stack

/- Put a value on the stack. -/
def push
    (s : TypeState)
    (v : VType) : TypeState :=
  { s with stack := v :: s.stack }

/- Take a value off the stack and go on with it. -/
def popThen
    (s : TypeState)
    (next : VType → TypeState → Option TypeState) :
    Option TypeState :=
  match s.stack with
  | v :: rest => next v { s with stack := rest }
  | [] => none

/-
  Put a value into a slot.  A value of two slots takes the
  next one too, and a value that reached into the slot is
  lost.
-/
def store
    (s : TypeState)
    (slot : Nat)
    (v : VType) : TypeState :=
  { s with
    slots := fun k =>
      if k = slot then v
      else if k = slot + 1 ∧ v.slots = 2 then .top
      else if k + 1 = slot ∧ (s.slots k).slots = 2 then .top
      else s.slots k }

/- Replace a type wherever the stack or a slot holds it. -/
def replace
    (s : TypeState)
    (old new : VType) : TypeState :=
  let change := fun v => if v = old then new else v
  { s with
    stack := s.stack.map change
    slots := fun k => change (s.slots k) }

end TypeState

/- What a method is checked against. -/
structure MethodFrame where
  className : String
  superName : String
  result : Ty

------------------------------------------------------------
-- Checking
------------------------------------------------------------

namespace Action

/- Take arguments off a stack, given their types from the last. -/
def popArgs : List VType → List VType → Option (List VType)
  | [], stack => some stack
  | t :: ts, v :: stack =>
      if v.isAssignableTo t then popArgs ts stack else none
  | _ :: _, [] => none

/-
  Take the object that a constructor is called for.  From then
  on it is an object of its class, wherever it is held.
-/
def construct
    (frame : MethodFrame)
    (owner : String)
    (s : TypeState) : Option TypeState :=
  match s.stack with
  | .uninit o :: rest =>
      if s.made o = some owner then
        some ({ s with stack := rest }.replace (.uninit o)
          (.object owner))
      else none
  | .uninitThis :: rest =>
      if owner = frame.superName ∨ owner = frame.className then
        some ({ s with stack := rest }.replace .uninitThis
          (.object frame.className))
      else none
  | _ => none

/- Take the receiver of a call off the stack. -/
def popReceiver
    (frame : MethodFrame)
    (kind : CallKind)
    (m : MemberRef)
    (s : TypeState) : Option TypeState :=
  if kind = .static then
    some s
  else if m.name = "<init>" then
    if kind = .special then construct frame m.owner s else none
  else
    (popArgs [.object m.owner] s.stack).map fun rest =>
      { s with stack := rest }

/- Call a method. -/
def call
    (frame : MethodFrame)
    (kind : CallKind)
    (m : MemberRef)
    (s : TypeState) : Option TypeState := do
  let (params, result) ← m.callTypes?
  let rest ← popArgs (params.map VType.ofTy).reverse s.stack
  let s ← popReceiver frame kind m { s with stack := rest }
  return if result.isValue then s.push (.ofTy result) else s

/- The state behind an action, unless it is rejected. -/
def check
    (frame : MethodFrame)
    (a : Action)
    (s : TypeState) : Option TypeState :=
  match a with
  | .push l => some (s.push l.vtype)
  | .load f slot =>
      if (s.slots slot).family? = some f then
        some (s.push (s.slots slot))
      else none
  | .store f slot =>
      s.popThen fun v s =>
        if v.family? = some f ∧ v.isInitialized then
          some (s.store slot v)
        else none
  | .pop =>
      s.popThen fun v s => if v.slots = 1 then some s else none
  | .pop2 =>
      s.popThen fun v s => if v.slots = 2 then some s else none
  | .dup =>
      s.popThen fun v s =>
        if v.slots = 1 then some ((s.push v).push v) else none
  | .swap =>
      s.popThen fun v s => s.popThen fun w s =>
        if v.slots = 1 ∧ w.slots = 1 then
          some ((s.push v).push w)
        else none
  | .new offset name =>
      if .uninit offset ∈ s.stack then none
      else
        some { s.push (.uninit offset) with
          made := fun o =>
            if o = offset then some name else s.made o }
  | .checkcast name =>
      s.popThen fun v s =>
        if v.isReference then some (s.push (.object name))
        else none
  | .getstatic m => m.fieldType?.map fun t => s.push (.ofTy t)
  | .putstatic m =>
      s.popThen fun v s =>
        m.fieldType?.bind fun t =>
          if v.isAssignableTo (.ofTy t) then some s else none
  | .invoke kind m => call frame kind m s
  | .jump .always => some s
  | .jump _ =>
      s.popThen fun v s => if v.isReference then some s else none
  | .returnValue f =>
      s.popThen fun v s =>
        if v.family? = some f ∧
            v.isAssignableTo (.ofTy frame.result) then some s
        else none
  | .returnVoid =>
      if frame.result.isValue then none else some s
  | .throw =>
      s.popThen fun v s => if v.isReference then some s else none

end Action

------------------------------------------------------------
-- Heights
------------------------------------------------------------

namespace TypeState

variable {s s' : TypeState} {v : VType}

@[simp] theorem height_push
    (s : TypeState)
    (v : VType) :
    (s.push v).height = s.height + v.slots := by
  simp [height, push, VType.totalSlots, Nat.add_comm]

@[simp] theorem height_store
    (s : TypeState)
    (slot : Nat)
    (v : VType) :
    (s.store slot v).height = s.height :=
  rfl

/- Taking a value leads to a state with the value on top. -/
theorem popThen_eq_some
    {next : VType → TypeState → Option TypeState} :
    s.popThen next = some s' ↔
      ∃ v r, s = r.push v ∧ next v r = some s' := by
  rcases s with ⟨slots, stack, made⟩
  constructor
  · intro hPop
    cases stack with
    | nil => cases hPop
    | cons v rest => exact ⟨v, ⟨slots, rest, made⟩, rfl, hPop⟩
  · rintro ⟨v, r, hEq, hNext⟩
    cases hEq
    exact hNext

@[simp] theorem popThen_push
    (s : TypeState)
    (v : VType)
    (next : VType → TypeState → Option TypeState) :
    (s.push v).popThen next = next v s :=
  rfl

/- A change of types that keeps their widths keeps the height. -/
theorem height_replace
    (s : TypeState)
    {old new : VType}
    (hSlots : old.slots = new.slots) :
    (s.replace old new).height = s.height := by
  unfold height replace
  dsimp only
  induction s.stack with
  | nil => rfl
  | cons v rest ih =>
      simp only [VType.totalSlots, List.map_cons,
        List.foldr_cons] at ih ⊢
      rw [ih]
      split
      case isTrue hOld => rw [hOld, hSlots]
      case isFalse => rfl

end TypeState

namespace Action

variable {frame : MethodFrame} {s s' : TypeState}

theorem totalSlots_of_popArgs
    {ts stack rest : List VType}
    (hPop : popArgs ts stack = some rest) :
    VType.totalSlots stack =
      VType.totalSlots rest + VType.totalSlots ts := by
  induction ts generalizing stack with
  | nil =>
      cases hPop
      rfl
  | cons t ts ih =>
      cases stack with
      | nil => cases hPop
      | cons v stack =>
          simp only [popArgs] at hPop
          split at hPop
          case isTrue hAssign =>
              have hRest := ih hPop
              have hWidth := VType.slots_of_isAssignableTo hAssign
              simp only [VType.totalSlots_cons]
              omega
          case isFalse => cases hPop

theorem height_of_construct
    {owner : String}
    (hConstruct : construct frame owner s = some s') :
    s.height = s'.height + 1 := by
  unfold construct at hConstruct
  split at hConstruct
  case h_1 o rest hStack =>
      split at hConstruct
      case isTrue =>
          cases hConstruct
          rw [TypeState.height_replace]
          · simp [TypeState.height, hStack, VType.slots,
              Nat.add_comm]
          · rfl
      case isFalse => cases hConstruct
  case h_2 rest hStack =>
      split at hConstruct
      case isTrue =>
          cases hConstruct
          rw [TypeState.height_replace]
          · simp [TypeState.height, hStack, VType.slots,
              Nat.add_comm]
          · rfl
      case isFalse => cases hConstruct
  case h_3 => cases hConstruct

theorem height_of_popReceiver
    {kind : CallKind}
    {m : MemberRef}
    (hPop : popReceiver frame kind m s = some s') :
    s.height = s'.height + if kind = .static then 0 else 1 := by
  unfold popReceiver at hPop
  split at hPop
  case isTrue hStatic =>
      cases hPop
      simp [hStatic]
  case isFalse hKind =>
      rw [if_neg hKind]
      split at hPop
      case isTrue =>
          split at hPop
          case isTrue => exact height_of_construct hPop
          case isFalse => cases hPop
      case isFalse =>
          rcases Option.map_eq_some_iff.mp hPop with
            ⟨rest, hArgs, rfl⟩
          exact totalSlots_of_popArgs hArgs

/- A call takes and gives what its descriptor says. -/
theorem effect?_of_call
    {kind : CallKind}
    {m : MemberRef}
    (hCall : call frame kind m s = some s') :
    ∃ base pops pushes,
      (Action.invoke kind m).effect? = some (pops, pushes) ∧
        s.height = base + pops ∧ s'.height = base + pushes := by
  unfold call at hCall
  simp only [Option.bind_eq_bind, Option.bind_eq_some_iff,
    Prod.exists] at hCall
  rcases hCall with
    ⟨params, result, hTypes, rest, hArgs, r, hReceiver, hEnd⟩
  have hSlots := MemberRef.callSlots?_of_callTypes? hTypes
  have hPopped := totalSlots_of_popArgs hArgs
  have hTaken := height_of_popReceiver hReceiver
  rw [VType.totalSlots_reverse] at hPopped
  have hAfter : s'.height = r.height +
      if result.isValue then (VType.ofTy result).slots else 0 := by
    cases hEnd
    split <;> simp
  have hBefore : s.height = r.height +
      (if kind = .static then 0 else 1) +
        VType.totalSlots (params.map VType.ofTy) := by
    change VType.totalSlots s.stack = _
    change VType.totalSlots rest = _ at hTaken
    omega
  refine ⟨r.height,
    VType.totalSlots (params.map VType.ofTy) +
      (if kind = .static then 0 else 1), _, ?_, ?_, hAfter⟩
  · cases kind <;> simp [effect?, hSlots]
  · omega

/-
  Accepted actions pop and push what their effect says.  Many
  take one value and put nothing back.
-/
theorem effect?_of_check
    {a : Action}
    (hCheck : a.check frame s = some s') :
    ∃ base pops pushes, a.effect? = some (pops, pushes) ∧
      s.height = base + pops ∧ s'.height = base + pushes := by
  have hTakes :
      ∀ {n : Nat} {P : VType → Prop} [DecidablePred P],
        (∀ v, P v → v.slots = n) →
        (s.popThen fun v s => if P v then some s else none) =
          some s' →
        s.height = s'.height + n ∧ s'.height = s'.height + 0 := by
    intro n P _ hWidth hPop
    rcases TypeState.popThen_eq_some.mp hPop with ⟨v, r, rfl, hIf⟩
    split at hIf
    case isTrue hv =>
        cases hIf
        simp [hWidth v hv]
    case isFalse => cases hIf
  have hReference : ∀ v : VType, v.isReference = true →
      v.slots = 1 := by
    intro v hv
    cases v <;> simp [VType.isReference] at hv <;> rfl
  cases a with
  | push l =>
      cases hCheck
      exact ⟨s.height, 0, _, rfl, rfl, s.height_push _⟩
  | load f slot =>
      simp only [check] at hCheck
      split at hCheck
      case isTrue hFamily =>
          cases hCheck
          refine ⟨s.height, 0, _, rfl, rfl, ?_⟩
          rw [s.height_push, VType.slots_of_family? hFamily]
      case isFalse => cases hCheck
  | store f slot =>
      simp only [check, TypeState.popThen_eq_some] at hCheck
      rcases hCheck with ⟨v, r, rfl, hIf⟩
      split at hIf
      case isTrue hv =>
          cases hIf
          refine ⟨r.height, _, 0, rfl, ?_, rfl⟩
          rw [r.height_push, VType.slots_of_family? hv.1]
      case isFalse => cases hIf
  | pop =>
      exact ⟨_, 1, 0, rfl, hTakes (fun _ hv => hv) hCheck⟩
  | pop2 =>
      exact ⟨_, 2, 0, rfl, hTakes (fun _ hv => hv) hCheck⟩
  | dup =>
      simp only [check, TypeState.popThen_eq_some] at hCheck
      rcases hCheck with ⟨v, r, rfl, hIf⟩
      split at hIf
      case isTrue hv =>
          cases hIf
          exact ⟨r.height, 1, 2, rfl, by simp [hv], by simp [hv]⟩
      case isFalse => cases hIf
  | swap =>
      simp only [check, TypeState.popThen_eq_some] at hCheck
      rcases hCheck with ⟨v, _, rfl, w, r, rfl, hIf⟩
      split at hIf
      case isTrue hv =>
          cases hIf
          exact ⟨r.height, 2, 2, rfl, by simp [hv], by simp [hv]⟩
      case isFalse => cases hIf
  | new offset name =>
      simp only [check] at hCheck
      split at hCheck
      case isTrue => cases hCheck
      case isFalse =>
          cases hCheck
          exact ⟨s.height, 0, 1, rfl, rfl, s.height_push _⟩
  | checkcast name =>
      simp only [check, TypeState.popThen_eq_some] at hCheck
      rcases hCheck with ⟨v, r, rfl, hIf⟩
      split at hIf
      case isTrue hv =>
          cases hIf
          refine ⟨r.height, 1, 1, rfl, ?_, r.height_push _⟩
          rw [r.height_push, hReference v hv]
      case isFalse => cases hIf
  | getstatic m =>
      rcases Option.map_eq_some_iff.mp hCheck with ⟨t, hType, rfl⟩
      refine ⟨s.height, 0, _, ?_, rfl, s.height_push _⟩
      rw [effect?, MemberRef.fieldSlots?_of_fieldType? hType]
      rfl
  | putstatic m =>
      simp only [check, TypeState.popThen_eq_some,
        Option.bind_eq_some_iff] at hCheck
      rcases hCheck with ⟨v, r, rfl, t, hType, hIf⟩
      split at hIf
      case isTrue hv =>
          cases hIf
          refine ⟨s'.height, (VType.ofTy t).slots, 0, ?_, ?_, rfl⟩
          · rw [effect?, MemberRef.fieldSlots?_of_fieldType? hType]
            rfl
          · rw [TypeState.height_push,
              VType.slots_of_isAssignableTo hv]
      case isFalse => cases hIf
  | invoke kind m => exact effect?_of_call hCheck
  | jump c =>
      cases c with
      | always =>
          cases hCheck
          exact ⟨s.height, 0, 0, rfl, rfl, rfl⟩
      | ifNull =>
          exact ⟨_, 1, 0, rfl, hTakes hReference hCheck⟩
      | ifNonNull =>
          exact ⟨_, 1, 0, rfl, hTakes hReference hCheck⟩
  | returnValue f =>
      exact ⟨_, _, 0, rfl,
        hTakes (fun _ hv => VType.slots_of_family? hv.1) hCheck⟩
  | returnVoid =>
      simp only [check] at hCheck
      split at hCheck
      case isTrue => cases hCheck
      case isFalse =>
          cases hCheck
          exact ⟨s.height, 0, 0, rfl, rfl, rfl⟩
  | throw => exact ⟨_, 1, 0, rfl, hTakes hReference hCheck⟩

end Action

end Stratagem

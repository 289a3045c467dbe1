import Stratagem.Proofs.Assembly.Effects
import Stratagem.Proofs.Code.Calls

/-
  Steps that keep to the stack.

  A step is permitted if it finds on the stack what it takes,
  and if the labels that it names are reached with one depth.
  A draft whose steps are permitted stays measured, as long as
  each local that is loaded is as wide as what is known of it.

  Key definitions include:
    * `Step.takes`
    * `Step.Permitted`
    * `Step.Faithful`
    * `Step.Always`

  Main declarations:
    * `Measured.apply`
    * `Measured.runAll`
-/

namespace Stratagem

open Jvm Emitter

------------------------------------------------------------
-- Permitted Steps
------------------------------------------------------------

namespace Step

/-
  Slots of the values that a step takes, the top first.  What
  is dropped may have any width, and nothing is as wide as a
  parameter without values.
-/
def takes
    (m : MethodDraft) : Step → List Nat
  | .store l =>
      match m.locals[l.index]? with
      | some v => [v.ty.width]
      | none => []
  | .drop => [m.pop.1.slots]
  | .dup => [1]
  | .swap => [1, 1]
  | .checkcast _ => [1]
  | .athrow => [1]
  | .putstatic _ _ ty => [ty.slots]
  | .invoke kind _ _ descriptor =>
      match parseMethodDescriptor descriptor with
      | .ok (params, _) =>
          (params.map Ty.slots).reverse ++
            List.replicate kind.receivers 1
      | .error _ => []
  | .box ty => if ty.boxed?.isSome then [ty.slots] else []
  | .unbox _ => [1]
  | .ifnull _ => [1]
  | .ifnonnull _ => [1]
  | .returnValue ty => if ty.isVoid then [] else [ty.slots]
  | _ => []

/- The label that a step jumps to or binds. -/
def label? : Step → Option Label
  | .bind l => some l
  | .goto l => some l
  | .ifnull l => some l
  | .ifnonnull l => some l
  | _ => none

/- The type of the field that a step uses. -/
def fieldType? : Step → Option Ty
  | .getstatic _ _ ty => some ty
  | .putstatic _ _ ty => some ty
  | _ => none

/- Whether the descriptor of a type can be read. -/
def isReadable
    (ty : Ty) : Bool :=
  match ty.descriptor with
  | .ok d => (Ty.ofDescriptor d).isOk
  | .error _ => false

/- Whether a step binds a label. -/
def isBind : Step → Bool
  | .bind _ => true
  | _ => false

/-
  A step that a draft may take.  Only a label is bound where
  nothing is reached; the values that the step takes are there;
  a label of the draft that is known for a depth is reached with
  that depth; a field has values and a descriptor that can be
  read; and the stack does not get too high.
-/
structure Permitted
    (m : MethodDraft)
    (s : Step) : Prop where
  reached : m.reachable = true ∨ s.isBind = true
  entries : s.takes m <+: m.stack.map VType.slots
  made : ∀ l ∈ s.label?, l.index < m.labels.size
  joins : ∀ l ∈ s.label?, m.reachable = true →
    ∀ e ∈ (m.labelAt l).entry,
      e.height + (s.takes m).sum = m.height
  fields : ∀ ty ∈ s.fieldType?,
    ty.isVoid = false ∧ isReadable ty = true
  bounded : (s.apply m).height ≤ 65535

instance
    (m : MethodDraft)
    (s : Step) :
    Decidable (s.Permitted m) :=
  decidable_of_iff
    ((m.reachable = true ∨ s.isBind = true) ∧
      s.takes m <+: m.stack.map VType.slots ∧
      (∀ l ∈ s.label?, l.index < m.labels.size) ∧
      (∀ l ∈ s.label?, m.reachable = true →
        ∀ e ∈ (m.labelAt l).entry,
          e.height + (s.takes m).sum = m.height) ∧
      (∀ ty ∈ s.fieldType?,
        ty.isVoid = false ∧ isReadable ty = true) ∧
      (s.apply m).height ≤ 65535)
    ⟨fun ⟨h₁, h₂, h₃, h₄, h₅, h₆⟩ => ⟨h₁, h₂, h₃, h₄, h₅, h₆⟩,
      fun h => ⟨h.reached, h.entries, h.made, h.joins, h.fields,
        h.bounded⟩⟩

/- The local that a step loads. -/
def loaded?
    (m : MethodDraft) : Step → Option LocalVar
  | .load l => m.locals[l.index]?
  | .loadThis => m.this?.bind fun l => m.locals[l.index]?
  | _ => none

/- What is known of a local that is loaded is as wide as it. -/
def Faithful
    (m : MethodDraft)
    (s : Step) : Prop :=
  ∀ v ∈ s.loaded? m, (heldIn v m).slots = v.ty.width

instance
    (m : MethodDraft)
    (s : Step) :
    Decidable (s.Faithful m) :=
  inferInstanceAs
    (Decidable (∀ v ∈ s.loaded? m, (heldIn v m).slots = v.ty.width))

/- Something holds of every step where it is taken. -/
def Always
    (P : MethodDraft → Step → Prop) :
    List Step → MethodDraft → Prop
  | [], _ => True
  | s :: steps, m => P m s ∧ Always P steps (s.apply m)

instance decidableAlways
    (P : MethodDraft → Step → Prop)
    [∀ m s, Decidable (P m s)] :
    ∀ steps m, Decidable (Always P steps m)
  | [], _ => isTrue trivial
  | s :: steps, m =>
      have := decidableAlways P steps (s.apply m)
      inferInstanceAs
        (Decidable (P m s ∧ Always P steps (s.apply m)))

theorem exists_of_isReadable
    {ty : Ty}
    (hReadable : isReadable ty = true) :
    ∃ d t, ty.descriptor = .ok d ∧ Ty.ofDescriptor d = .ok t := by
  unfold isReadable at hReadable
  cases hText : ty.descriptor with
  | error e =>
      rw [hText] at hReadable
      cases hReadable
  | ok d =>
      rw [hText] at hReadable
      dsimp only at hReadable
      cases hRead : Ty.ofDescriptor d with
      | error e =>
          rw [hRead] at hReadable
          cases hReadable
      | ok t => exact ⟨d, t, rfl, hRead⟩

end Step

------------------------------------------------------------
-- Locals
------------------------------------------------------------

section Locals

variable {m : MethodDraft} {ks : List Mark} {l : Local}

theorem types_of_local
    {v : LocalVar}
    (hLocal : m.locals[l.index]? = some v) :
    m.types[l.index]? = some v.ty := by
  rw [MethodDraft.Sound.types_getElem?, hLocal]
  rfl

/- What loading a local does. -/
theorem outcomeOf_load
    (m : MethodDraft)
    (l : Local) :
    outcomeOf (load l) m =
      match m.locals[l.index]? with
      | none => (.ok (), m)
      | some v => (.ok (), (m.append (.instruction
          (.onSlot m.offset (.loadShort (.ofTy v.ty))
            (.load (.ofTy v.ty)) v.slot))).push (heldIn v m)) := by
  have hGet : outcomeOf (get : Emitter MethodDraft) m =
      (.ok m, m) := rfl
  unfold load
  simp only [onSlot_eq]
  rw [outcomeOf_bind, hGet]
  dsimp only
  cases m.locals[l.index]? with
  | none => rfl
  | some v => rfl

theorem measured_load
    (hMeasured : Measured m ks)
    (hReached : m.reachable = true)
    (hBounded : (outcomeOf (load l) m).2.height ≤ 65535)
    (hFaithful : ∀ v, m.locals[l.index]? = some v →
      (heldIn v m).slots = v.ty.width) :
    ∃ ks', Measured (outcomeOf (load l) m).2 ks' := by
  cases hLocal : m.locals[l.index]? with
  | none =>
      rw [outcomeOf_load, hLocal]
      exact ⟨ks, hMeasured⟩
  | some v =>
      have hRun := outcomeOf_load m l
      rw [hLocal] at hRun
      refine hMeasured.pushes
        (a := .load (.ofTy v.ty) (Ty.slotOf m.types l.index)) hReached
        (safe_load l) hBounded
        (moves_of_yields hRun ⟨rfl, rfl, rfl, rfl, rfl⟩) ?_ ?_ rfl
      · intro u m' hYields
        exact (emits_load hMeasured.sound (types_of_local hLocal)
          hYields).writes
      · rw [hFaithful v hLocal]
        rfl

/- The receiver is a local, too. -/
theorem outcomeOf_loadThis
    (m : MethodDraft) :
    outcomeOf loadThis m =
      match m.this? with
      | none => (.ok (), m)
      | some l => outcomeOf (load l) m := by
  have hGet : outcomeOf (get : Emitter MethodDraft) m =
      (.ok m, m) := rfl
  rw [loadThis, outcomeOf_bind, hGet]
  dsimp only
  cases m.this? <;> rfl

theorem measured_loadThis
    (hMeasured : Measured m ks)
    (hReached : m.reachable = true)
    (hBounded : (outcomeOf loadThis m).2.height ≤ 65535)
    (hFaithful : Step.Faithful m .loadThis) :
    ∃ ks', Measured (outcomeOf loadThis m).2 ks' := by
  unfold Step.Faithful Step.loaded? at hFaithful
  rw [outcomeOf_loadThis] at hBounded ⊢
  cases hThis : m.this? with
  | none => exact ⟨ks, hMeasured⟩
  | some l =>
      rw [hThis] at hBounded hFaithful
      exact measured_load hMeasured hReached hBounded hFaithful

theorem measured_store
    (hMeasured : Measured m ks)
    (hReached : m.reachable = true)
    (hBounded : (outcomeOf (store l) m).2.height ≤ 65535)
    (hEntries : (Step.store l).takes m <+:
      m.stack.map VType.slots) :
    ∃ ks', Measured (outcomeOf (store l) m).2 ks' := by
  simp only [Step.takes] at hEntries
  cases hLocal : m.locals[l.index]? with
  | none =>
      rw [outcomeOf_store_none hLocal]
      exact ⟨ks, hMeasured⟩
  | some x =>
      rw [hLocal] at hEntries
      rcases exists_entry hEntries with ⟨v, rest, hStack, hWidth, -⟩
      have hOne : m.stack = [v] ++ rest := hStack
      refine hMeasured.exchange
        (a := .store (.ofTy x.ty) (Ty.slotOf m.types l.index)) hReached
        (safe_store l) hBounded hOne (moves_store hLocal) ?_ ?_ rfl
      · intro u m' hYields
        exact (emits_store hMeasured.sound (types_of_local hLocal)
          hYields).writes
      · rw [VType.totalSlots_cons, hWidth]
        rfl

theorem outcomeOf_newLocal
    (m : MethodDraft)
    (name : String)
    (ty : Ty) :
    (outcomeOf (discard (newLocal name ty)) m).2 =
      if m.hasRoom ty then (m.alloc name ty none .top).2 else m := by
  change (outcomeOf (newLocal name ty >>= fun _ => pure ()) m).2 = _
  rw [outcomeOf_bind]
  unfold outcomeOf newLocal
  by_cases hRoom : m.hasRoom ty = true
  · rw [if_pos hRoom, if_pos hRoom]
    rfl
  · rw [if_neg hRoom, if_neg hRoom]

theorem measured_newLocal
    (hMeasured : Measured m ks)
    (name : String)
    (ty : Ty) :
    Measured (outcomeOf (discard (newLocal name ty)) m).2 ks := by
  have hSound :=
    ((safe_newLocal name ty).discard m).sound hMeasured.sound
  rw [outcomeOf_newLocal] at hSound ⊢
  by_cases hRoom : m.hasRoom ty = true
  · rw [if_pos hRoom] at hSound ⊢
    refine hMeasured.idle hSound
      ⟨hMeasured.level.depth, hMeasured.level.high⟩ (.refl _) ?_
      (Nat.le_refl _) rfl rfl rfl rfl fun _ => rfl
    rw [m.types_alloc, Ty.widths_append]
    exact Nat.le_add_right _ _
  · rw [if_neg hRoom]
    exact hMeasured

end Locals

------------------------------------------------------------
-- Objects and Calls
------------------------------------------------------------

section Calls

variable {m : MethodDraft} {ks : List Mark}

theorem measured_drop
    (hMeasured : Measured m ks)
    (hReached : m.reachable = true)
    (hBounded : (outcomeOf drop m).2.height ≤ 65535)
    (hEntries : [m.pop.1.slots] <+: m.stack.map VType.slots) :
    ∃ ks', Measured (outcomeOf drop m).2 ks' := by
  rcases exists_entry hEntries with ⟨v, rest, hStack, hWidth, -⟩
  have hOne : m.stack = [v] ++ rest := hStack
  refine hMeasured.exchange (a := dropAction m.pop.1.slots) hReached
    safe_drop hBounded hOne (moves_drop m)
    (fun u m' hYields => writes_drop hYields) ?_ ?_
  · rw [← hWidth]
    cases v <;> rfl
  · unfold dropAction
    split <;> rfl

theorem measured_checkcast
    {ty : Ty}
    (hMeasured : Measured m ks)
    (hReached : m.reachable = true)
    (hBounded : (outcomeOf (checkcast ty) m).2.height ≤ 65535)
    (hEntries : [1] <+: m.stack.map VType.slots) :
    ∃ ks', Measured (outcomeOf (checkcast ty) m).2 ks' := by
  rcases exists_entry hEntries with ⟨v, rest, hStack, hWidth, -⟩
  have hOne : m.stack = [v] ++ rest := hStack
  have hWrites : ∀ u m', Yields (checkcast ty) m u m' →
      Emits m (castActions ty) [] m' := by
    intro u m' hYields
    exact emits_checkcast hMeasured.sound hYields
  cases hTy : VType.ofTy ty with
  | object name =>
      by_cases hObject : name = "java/lang/Object"
      · have hRun : outcomeOf (checkcast ty) m = (.ok (), m) := by
          unfold checkcast
          rw [hTy]
          dsimp only
          rw [if_pos hObject]
          rfl
        rw [hRun]
        exact ⟨ks, hMeasured⟩
      · have hCast : castActions ty = [.checkcast name] := by
          unfold castActions
          rw [hTy]
          exact if_neg hObject
        rw [hCast] at hWrites
        refine hMeasured.exchange (a := .checkcast name) hReached
          (safe_checkcast ty) hBounded hOne
          (moves_checkcast m hTy hObject)
          (fun u m' hYields => (hWrites u m' hYields).writes) ?_ rfl
        rw [VType.totalSlots_cons, hWidth]
        rfl
  | _ =>
      have hRun : (outcomeOf (checkcast ty) m).2 = m := by
        unfold checkcast
        rw [hTy]
        rfl
      rw [hRun]
      exact ⟨ks, hMeasured⟩

section Calls

variable {kind : CallKind} {params : List Ty}
variable {args receiver : List VType}

/- What a call takes is as wide as its types say. -/
theorem totalSlots_taken
    (hArgs : args.map VType.slots = (params.map Ty.slots).reverse)
    (hReceiver : receiver.map VType.slots =
      List.replicate kind.receivers 1) :
    VType.totalSlots (args ++ receiver) =
      Ty.totalSlots params + kind.receivers := by
  have hParams : VType.totalSlots args = Ty.totalSlots params := by
    rw [VType.totalSlots_eq_sum, hArgs, List.sum_reverse,
      Ty.totalSlots, List.sum, List.foldr_map]
  have hCalled : VType.totalSlots receiver = kind.receivers := by
    rw [VType.totalSlots_eq_sum, hReceiver]
    simp
  rw [VType.totalSlots_append, hParams, hCalled]

theorem countedSlots_le
    (kind : CallKind)
    (params : List Ty) :
    countedSlots kind params ≤
      Ty.totalSlots params + kind.receivers := by
  cases kind <;> simp [countedSlots, CallKind.receivers, Nat.add_comm]

/- And so is what it leaves. -/
theorem effect?_invoke
    {descriptor : String}
    {result : Ty}
    (owner name : String)
    (hParse : parseMethodDescriptor descriptor =
      .ok (params, result))
    (hArgs : args.map VType.slots = (params.map Ty.slots).reverse)
    (hReceiver : receiver.map VType.slots =
      List.replicate kind.receivers 1) :
    (Action.invoke kind
      (.ofCall kind owner name descriptor)).effect? =
        some (VType.totalSlots (args ++ receiver),
          VType.totalSlots (resultValues result)) := by
  have hResult : VType.totalSlots (resultValues result) =
      result.slots := by
    have hEither := result_of_parse hParse
    unfold resultValues
    cases hVoid : result.isVoid with
    | true =>
        cases result with
        | primitive p => cases p <;> first | rfl | cases hVoid
        | _ => cases hVoid
    | false =>
        rw [hVoid, Bool.or_false] at hEither
        exact VType.slots_ofTy hEither
  have hSlots : (MemberRef.ofCall kind owner name
      descriptor).callSlots? =
        some (Ty.totalSlots params, result.slots) := by
    unfold MemberRef.callSlots? MemberRef.ofCall
    rw [hParse]
    rfl
  rw [totalSlots_taken hArgs hReceiver, hResult]
  cases kind <;> simp [Action.effect?, hSlots, CallKind.receivers]

end Calls

theorem measured_invoke
    {kind : CallKind}
    {owner name descriptor : String}
    (hMeasured : Measured m ks)
    (hReached : m.reachable = true)
    (hBounded : (outcomeOf
      (invoke kind owner name descriptor) m).2.height ≤ 65535)
    (hEntries : (Step.invoke kind owner name descriptor).takes m <+:
      m.stack.map VType.slots) :
    ∃ ks', Measured
      (outcomeOf (invoke kind owner name descriptor) m).2 ks' := by
  simp only [Step.takes] at hEntries
  rcases hParse : parseMethodDescriptor descriptor with
    e | ⟨params, result⟩
  · have hRun : (outcomeOf
        (invoke kind owner name descriptor) m).2 = m := by
      unfold invoke
      rw [hParse]
      rfl
    rw [hRun]
    exact ⟨ks, hMeasured⟩
  · rw [hParse] at hEntries
    rcases exists_entries hEntries with
      ⟨args, below, hStack, hArgs, hBelow⟩
    rw [← List.append_nil (List.replicate kind.receivers 1)] at hBelow
    rcases exists_entries hBelow with
      ⟨receiver, rest, rfl, hReceiver, -⟩
    have hLength : args.length = params.length := by
      simpa using congrArg List.length hArgs
    have hAll : m.stack = (args ++ receiver) ++ rest := by
      rw [hStack, List.append_assoc]
    have hCount : (args ++ receiver).length =
        params.length + kind.receivers := by
      rw [List.length_append, hLength]
      simpa using congrArg List.length hReceiver
    have hSmall : countedSlots kind params ≤ 65535 := by
      have hCounted := countedSlots_le kind params
      have hHeight := hMeasured.level.height_le
      rw [← totalSlots_taken hArgs hReceiver] at hCounted
      rw [MethodDraft.height, hAll, VType.totalSlots_append] at hHeight
      omega
    have hMoves : Moves (invoke kind owner name descriptor) m
        (m.exchange (args ++ receiver).length
          (resultValues result)) := by
      rw [hCount]
      refine moves_invoke owner name hParse hSmall fun hSpecial _ => ?_
      subst hSpecial
      rcases List.map_eq_singleton_iff.mp hReceiver with
        ⟨v, rfl, hWidth⟩
      rw [MethodDraft.pop_top, MethodDraft.stack_popMany, hStack,
        ← hLength, List.drop_left]
      exact hWidth
    refine hMeasured.exchange
      (a := .invoke kind (.ofCall kind owner name descriptor))
      hReached (safe_invoke _ _ _ _) hBounded hAll hMoves
      (fun u m' hYields =>
        (emits_invoke hMeasured.sound hYields).writes) ?_ rfl
    exact effect?_invoke owner name hParse hArgs hReceiver

/- Wrapping a primitive is a call. -/
theorem outcomeOf_box
    {p : Primitive}
    {name : String}
    (m : MethodDraft)
    (hClass : p.boxClass? = some name) :
    ∃ d result,
      parseMethodDescriptor d = .ok ([.primitive p], result) ∧
      outcomeOf (box (.primitive p)) m =
        outcomeOf (invoke .static name "valueOf" d) m := by
  have hRead : ∃ result, parseMethodDescriptor
      (toString "(" ++ toString (String.singleton p.letter) ++
        toString ")" ++ toString ("L" ++ name ++ ";")) =
          .ok ([.primitive p], result) := by
    cases p <;> cases hClass <;> exact ⟨_, rfl⟩
  rcases hRead with ⟨result, hRead⟩
  refine ⟨_, result, hRead, ?_⟩
  simp only [box, Ty.boxed?, hClass, Option.map_some,
    internalName_ofClass, descriptor_ofClass, descriptor_primitive,
    property, pure_bind]

theorem measured_box
    {ty : Ty}
    (hMeasured : Measured m ks)
    (hReached : m.reachable = true)
    (hBounded : (outcomeOf (box ty) m).2.height ≤ 65535)
    (hEntries : (Step.box ty).takes m <+:
      m.stack.map VType.slots) :
    ∃ ks', Measured (outcomeOf (box ty) m).2 ks' := by
  cases ty with
  | primitive p =>
      cases hClass : p.boxClass? with
      | none =>
          have hRun : outcomeOf (box (.primitive p)) m =
              (.ok (), m) := by
            simp only [box, Ty.boxed?, hClass, Option.map_none]
            rfl
          rw [hRun]
          exact ⟨ks, hMeasured⟩
      | some name =>
          rcases outcomeOf_box m hClass with
            ⟨d, result, hRead, hRun⟩
          rw [hRun] at hBounded ⊢
          refine measured_invoke hMeasured hReached hBounded ?_
          simp only [Step.takes, hRead]
          simpa [Step.takes, Ty.boxed?, hClass, CallKind.receivers]
            using hEntries
  | _ => exact ⟨ks, hMeasured⟩

theorem measured_dup
    (hMeasured : Measured m ks)
    (hReached : m.reachable = true)
    (hBounded : (outcomeOf dup m).2.height ≤ 65535)
    (hEntries : [1] <+: m.stack.map VType.slots) :
    ∃ ks', Measured (outcomeOf dup m).2 ks' := by
  rcases exists_entry hEntries with ⟨v, rest, hStack, hWidth, -⟩
  have hOne : m.stack = [v] ++ rest := hStack
  have hMoves := moves_dup m
  rw [MethodDraft.pop_top, hStack, List.headD_cons] at hMoves
  refine hMeasured.exchange (a := .dup) hReached safe_dup hBounded hOne
    hMoves
    (fun u m' hYields => (emits_dup hYields).writes) ?_ rfl
  rw [VType.totalSlots_cons, VType.totalSlots_cons,
    VType.totalSlots_cons, hWidth]
  rfl

theorem measured_swap
    (hMeasured : Measured m ks)
    (hReached : m.reachable = true)
    (hBounded : (outcomeOf swap m).2.height ≤ 65535)
    (hEntries : [1, 1] <+: m.stack.map VType.slots) :
    ∃ ks', Measured (outcomeOf swap m).2 ks' := by
  rcases exists_entry hEntries with
    ⟨v, below, hStack, hWidth, hBelow⟩
  rcases exists_entry hBelow with ⟨w, rest, rfl, hWidth', -⟩
  have hTwo : m.stack = [v, w] ++ rest := hStack
  have hMoves := moves_swap m
  simp only [MethodDraft.pop_top, MethodDraft.stack_pop, hStack,
    List.tail_cons, List.headD_cons] at hMoves
  refine hMeasured.exchange (a := .swap) hReached safe_swap hBounded
    hTwo hMoves
    (fun u m' hYields => writes_swap hYields) ?_ rfl
  simp only [VType.totalSlots_cons, hWidth, hWidth']
  rfl

/- A cast leaves the stack as wide as it was. -/
theorem widths_checkcast
    {name : String}
    (hOther : name ≠ "java/lang/Object")
    (hEntries : [1] <+: m.stack.map VType.slots) :
    (outcomeOf (checkcast (.ofClass name)) m).2.stack.map
        VType.slots = m.stack.map VType.slots ∧
      (outcomeOf (checkcast (.ofClass name)) m).2.reachable =
        m.reachable := by
  rcases exists_entry hEntries with ⟨v, rest, hStack, hWidth, -⟩
  have hMoves :=
    moves_checkcast m (VType.ofTy_ofClass name) hOther
  unfold Moves at hMoves
  rcases hRun : outcomeOf (checkcast (.ofClass name)) m with
    ⟨result, m₁⟩
  rw [hRun] at hMoves
  cases result with
  | error e =>
      rcases hMoves with ⟨p, -, rfl⟩
      exact ⟨rfl, rfl⟩
  | ok u =>
      refine ⟨hMoves.widths.trans ?_,
        hMoves.reachable.trans (m.reachable_exchange _ _)⟩
      rw [MethodDraft.stack_exchange, hStack]
      exact congrArg (· :: rest.map VType.slots) hWidth.symm

/- Unwrapping a primitive is a cast and a call. -/
theorem outcomeOf_unbox
    {p : Primitive}
    {name : String}
    (m : MethodDraft)
    (hClass : p.boxClass? = some name) :
    ∃ d, parseMethodDescriptor d = .ok ([], .primitive p) ∧
      outcomeOf (unbox (.primitive p)) m =
        outcomeOf (checkcast (.ofClass name) >>= fun _ =>
          invoke .virtual name (p.keyword ++ "Value") d) m := by
  have hRead : parseMethodDescriptor
      (toString "()" ++ toString (String.singleton p.letter)) =
        .ok ([], .primitive p) := by
    cases p <;> cases hClass <;> rfl
  refine ⟨_, hRead, ?_⟩
  simp only [unbox, Ty.boxed?, hClass, Option.map_some,
    (unboxMethod?_of_boxClass? hClass).1, internalName_ofClass,
    descriptor_primitive, property, pure_bind]

theorem measured_unbox
    {ty : Ty}
    (hMeasured : Measured m ks)
    (hReached : m.reachable = true)
    (hBounded : (outcomeOf (unbox ty) m).2.height ≤ 65535)
    (hEntries : [1] <+: m.stack.map VType.slots) :
    ∃ ks', Measured (outcomeOf (unbox ty) m).2 ks' := by
  cases ty with
  | primitive p =>
      cases hClass : p.boxClass? with
      | none =>
          have hRun : outcomeOf (unbox (.primitive p)) m =
              outcomeOf (checkcast (.primitive p)) m := by
            simp only [unbox, Ty.boxed?, hClass, Option.map_none]
          rw [hRun] at hBounded ⊢
          exact measured_checkcast hMeasured hReached hBounded hEntries
      | some name =>
          rcases outcomeOf_unbox m hClass with ⟨d, hRead, hRun⟩
          have hOther : name ≠ "java/lang/Object" := by
            cases p <;> cases hClass <;> decide
          rcases widths_checkcast hOther hEntries with
            ⟨hWidths, hSame⟩
          have hLow : (outcomeOf (checkcast (.ofClass name))
              m).2.height ≤ 65535 := by
            rw [MethodDraft.height, VType.totalSlots_congr hWidths]
            exact hMeasured.level.height_le
          have hFirst :=
            measured_checkcast hMeasured hReached hLow hEntries
          rw [hRun, outcomeOf_bind] at hBounded
          rw [hRun, outcomeOf_bind]
          rcases hCast : outcomeOf (checkcast (.ofClass name)) m with
            ⟨result, m₁⟩
          rw [hCast] at hBounded hFirst hWidths hSame
          cases result with
          | error e => exact hFirst
          | ok u =>
              rcases hFirst with ⟨ks₁, hMeasured₁⟩
              refine measured_invoke hMeasured₁ (hSame.trans hReached)
                hBounded ?_
              simp only [Step.takes, hRead]
              rw [hWidths]
              exact hEntries
  | _ => exact measured_checkcast hMeasured hReached hBounded hEntries

end Calls

------------------------------------------------------------
-- Fields
------------------------------------------------------------

section Fields

variable {m : MethodDraft} {ks : List Mark}
variable {owner name d : String} {ty t : Ty}

/- A field is read as one of the same width. -/
theorem fieldSlots?_ofField
    (owner name : String)
    (hText : ty.descriptor = .ok d)
    (hRead : Ty.ofDescriptor d = .ok t) :
    (MemberRef.ofField owner name d).fieldSlots? =
      some ty.slots := by
  unfold MemberRef.fieldSlots? MemberRef.ofField
  rw [hRead, ← Ty.slots_ofDescriptor hText hRead]
  rfl

theorem isValue_of_descriptor
    (hVoid : ty.isVoid = false)
    (hText : ty.descriptor = .ok d) :
    ty.isValue = true := by
  cases ty with
  | primitive p => cases p <;> first | rfl | cases hVoid
  | argument a => cases hText
  | _ => rfl

theorem measured_getstatic
    (hMeasured : Measured m ks)
    (hReached : m.reachable = true)
    (hBounded : (outcomeOf (getstatic owner name ty) m).2.height ≤
      65535)
    (hVoid : ty.isVoid = false)
    (hText : ty.descriptor = .ok d)
    (hRead : Ty.ofDescriptor d = .ok t) :
    ∃ ks', Measured (outcomeOf (getstatic owner name ty) m).2 ks' := by
  refine hMeasured.pushes (a := .getstatic (.ofField owner name d))
    hReached (safe_getstatic _ _ _) hBounded
    (moves_getstatic owner name ty)
    (fun u m' hYields =>
      writes_getstatic hMeasured.sound hText hYields) ?_ rfl
  rw [Action.effect?, fieldSlots?_ofField owner name hText hRead,
    VType.slots_ofTy (isValue_of_descriptor hVoid hText)]
  rfl

theorem measured_putstatic
    (hMeasured : Measured m ks)
    (hReached : m.reachable = true)
    (hBounded : (outcomeOf (putstatic owner name ty) m).2.height ≤
      65535)
    (hEntries : [ty.slots] <+: m.stack.map VType.slots)
    (hText : ty.descriptor = .ok d)
    (hRead : Ty.ofDescriptor d = .ok t) :
    ∃ ks', Measured (outcomeOf (putstatic owner name ty) m).2 ks' := by
  rcases exists_entry hEntries with ⟨v, rest, hStack, hWidth, -⟩
  have hOne : m.stack = [v] ++ rest := hStack
  refine hMeasured.exchange (a := .putstatic (.ofField owner name d))
    hReached (safe_putstatic _ _ _) hBounded hOne
    (moves_putstatic m owner name ty)
    (fun u m' hYields =>
      (emits_putstatic hMeasured.sound hText hYields).writes) ?_ rfl
  rw [Action.effect?, fieldSlots?_ofField owner name hText hRead,
    VType.totalSlots_cons, hWidth]
  rfl

end Fields

------------------------------------------------------------
-- Ends and Jumps
------------------------------------------------------------

section Jumps

variable {m : MethodDraft} {ks : List Mark} {l : Label}

theorem measured_athrow
    (hMeasured : Measured m ks)
    (hBounded : (outcomeOf athrow m).2.height ≤ 65535)
    (hEntries : [1] <+: m.stack.map VType.slots) :
    ∃ ks', Measured (outcomeOf athrow m).2 ks' := by
  rcases exists_entry hEntries with ⟨v, rest, hStack, hWidth, -⟩
  have hOne : m.stack = [v] ++ rest := hStack
  refine hMeasured.stops (a := .throw) safe_athrow hBounded hOne
    (moves_athrow m)
    (fun u m' hYields => (emits_athrow hYields).writes) ?_ rfl rfl
  rw [VType.totalSlots_cons, hWidth]
  rfl

theorem width_of_isVoid
    {ty : Ty}
    (hVoid : ty.isVoid = false) :
    ty.width = ty.slots := by
  cases ty with
  | primitive p => cases p <;> first | rfl | cases hVoid
  | _ => rfl

theorem measured_returnValue
    {ty : Ty}
    (hMeasured : Measured m ks)
    (hBounded : (outcomeOf (returnValue ty) m).2.height ≤ 65535)
    (hEntries : (Step.returnValue ty).takes m <+:
      m.stack.map VType.slots) :
    ∃ ks', Measured (outcomeOf (returnValue ty) m).2 ks' := by
  have hWrites : ∀ u m', Yields (returnValue ty) m u m' →
      Writes m (returnAction ty) m' := by
    intro u m' hYields
    exact (emits_returnValue hYields).writes
  simp only [Step.takes] at hEntries
  unfold returnAction at hWrites
  rw [beq_void] at hWrites
  cases hVoid : ty.isVoid with
  | true =>
      rw [hVoid, if_pos rfl] at hWrites
      exact hMeasured.stops (safe_returnValue ty) hBounded
        (List.nil_append _).symm (moves_returnValue m ty) hWrites rfl
        rfl rfl
  | false =>
      rw [hVoid, if_neg Bool.false_ne_true] at hWrites hEntries
      rcases exists_entry hEntries with ⟨v, rest, hStack, hWidth, -⟩
      have hOne : m.stack = [v] ++ rest := hStack
      refine hMeasured.stops (safe_returnValue ty) hBounded hOne
        (moves_returnValue m ty) hWrites ?_ rfl rfl
      rw [VType.totalSlots_cons, hWidth, ← width_of_isVoid hVoid]
      rfl

theorem measured_goto
    (hMeasured : Measured m ks)
    (hIn : l.index < m.labels.size)
    (hJoins : ∀ e, (m.labelAt l).entry = some e →
      e.height = m.height) :
    ∃ ks', Measured (outcomeOf (goto l) m).2 ks' := by
  have hSound := ((Step.goto l).safe_run m).sound hMeasured.sound
  exact hMeasured.jump (c := .always) m.snapshot hSound
    (MethodDraft.level_terminate _) rfl rfl rfl rfl rfl hIn rfl
    ⟨m.height, 0, 0, rfl, rfl, rfl⟩ hJoins nofun

/- A jump that takes the top of the stack. -/
theorem Measured.branch
    {c : Condition}
    (hMeasured : Measured m ks)
    (hReached : m.reachable = true)
    (hSound : (m.pop.2.jump c.opcode l).Sound)
    (hTop : c ≠ .always)
    (hEntries : [1] <+: m.stack.map VType.slots)
    (hIn : l.index < m.labels.size)
    (hJoins : ∀ e, (m.labelAt l).entry = some e →
      e.height + 1 = m.height) :
    ∃ ks', Measured (m.pop.2.jump c.opcode l) ks' := by
  rcases exists_entry hEntries with ⟨v, rest, hStack, hWidth, -⟩
  have hHeight := MethodDraft.height_of_stack hStack
  have hLevel := hMeasured.level.pop
  have hEffect : (Action.jump c).effect? = some (1, 0) := by
    cases c with
    | always => exact absurd rfl hTop
    | ifNull => rfl
    | ifNonNull => rfl
  rw [MethodDraft.pop_eq hStack] at hSound hLevel ⊢
  refine hMeasured.jump { slots := m.slots, stack := rest } hSound
    ⟨hLevel.depth, hLevel.high⟩ rfl rfl rfl rfl rfl hIn rfl
    ⟨VType.totalSlots rest, 1, 0, hEffect, ?_, rfl⟩ ?_ ?_
  · omega
  · intro e he
    have hKnown := hJoins e he
    change e.height = VType.totalSlots rest
    omega
  · exact fun _ => ⟨hReached, rfl⟩

/- A new label is known for nothing, like one that is not there. -/
theorem labelAt_push
    (m : MethodDraft)
    (l : Label) :
    { m with labels := m.labels.push {} }.labelAt l =
      m.labelAt l := by
  change (m.labels.push {}).getD l.index {} = m.labels.getD l.index {}
  rw [Array.getD_eq_getD_getElem?, Array.getD_eq_getD_getElem?,
    Array.getElem?_push]
  by_cases hNew : l.index = m.labels.size
  · rw [if_pos hNew, Array.getElem?_eq_none (Nat.le_of_eq hNew.symm)]
    rfl
  · rw [if_neg hNew]

theorem measured_newLabel
    (hMeasured : Measured m ks) :
    Measured (outcomeOf (discard newLabel) m).2 ks := by
  have hSound := (safe_newLabel.discard m).sound hMeasured.sound
  exact hMeasured.idle hSound
    ⟨hMeasured.level.depth, hMeasured.level.high⟩ (.refl _)
    (Nat.le_refl _) (Nat.le_refl _) rfl rfl rfl rfl (labelAt_push m)

end Jumps

------------------------------------------------------------
-- Runs
------------------------------------------------------------

section Runs

variable {m : MethodDraft} {ks : List Mark}

/- A permitted step leaves a measured draft measured. -/
theorem Measured.apply
    {s : Step}
    (hMeasured : Measured m ks)
    (hPermitted : s.Permitted m)
    (hFaithful : s.Faithful m) :
    ∃ ks', Measured (s.apply m) ks' := by
  have hEntries := hPermitted.entries
  have hBounded := hPermitted.bounded
  have hReached : s.isBind = false → m.reachable = true := by
    intro hOther
    rcases hPermitted.reached with hReached | hBind
    · exact hReached
    · rw [hOther] at hBind
      cases hBind
  have hSound := hMeasured.sound
  cases s with
  | aconstNull =>
      exact hMeasured.pushes (hReached rfl) (Step.safe_run .aconstNull)
        hBounded (moves_write_push _ _ (.refl _))
        (fun u m' hYields => writes_aconstNull hYields) rfl rfl
  | iconst n =>
      exact hMeasured.pushes (hReached rfl) (safe_iconst n) hBounded
        (moves_iconst n)
        (fun u m' hYields =>
          (emits_iconst hSound.pool.indexed hYields).writes) rfl rfl
  | lconst n =>
      exact hMeasured.pushes (hReached rfl) (safe_lconst n) hBounded
        (moves_lconst n)
        (fun u m' hYields =>
          (emits_lconst hSound.pool.indexed hYields).writes) rfl rfl
  | fconst x =>
      exact hMeasured.pushes (hReached rfl) (safe_fconst x) hBounded
        (moves_fconst x)
        (fun u m' hYields =>
          (emits_fconst hSound.pool.indexed hYields).writes) rfl rfl
  | dconst x =>
      exact hMeasured.pushes (hReached rfl) (safe_dconst x) hBounded
        (moves_dconst x)
        (fun u m' hYields =>
          (emits_dconst hSound.pool.indexed hYields).writes) rfl rfl
  | ldcString text =>
      exact hMeasured.pushes (hReached rfl) (safe_ldcString text)
        hBounded (moves_pooled_ldc (Pooling.grows_string text))
        (fun u m' hYields =>
          (emits_ldcString hSound.pool.indexed hYields).writes)
        rfl rfl
  | ldcClass name =>
      exact hMeasured.pushes (hReached rfl) (safe_ldcClass name)
        hBounded (moves_pooled_ldc (Pooling.grows_classRef name))
        (fun u m' hYields => writes_ldcClass hSound hYields) rfl rfl
  | load l =>
      exact measured_load hMeasured (hReached rfl) hBounded hFaithful
  | store l =>
      exact measured_store hMeasured (hReached rfl) hBounded hEntries
  | newLocal name ty => exact ⟨ks, measured_newLocal hMeasured name ty⟩
  | loadThis =>
      exact measured_loadThis hMeasured (hReached rfl) hBounded
        hFaithful
  | drop =>
      exact measured_drop hMeasured (hReached rfl) hBounded hEntries
  | dup =>
      exact measured_dup hMeasured (hReached rfl) hBounded hEntries
  | swap =>
      exact measured_swap hMeasured (hReached rfl) hBounded hEntries
  | new name =>
      exact hMeasured.pushes (hReached rfl) (safe_new name) hBounded
        (moves_new name)
        (fun u m' hYields => (emits_new hSound hYields).writes) rfl rfl
  | checkcast ty =>
      exact measured_checkcast hMeasured (hReached rfl) hBounded
        hEntries
  | athrow => exact measured_athrow hMeasured hBounded hEntries
  | getstatic owner name ty =>
      rcases hPermitted.fields ty rfl with ⟨hVoid, hReadable⟩
      rcases Step.exists_of_isReadable hReadable with
        ⟨d, t, hText, hRead⟩
      exact measured_getstatic hMeasured (hReached rfl) hBounded hVoid
        hText hRead
  | putstatic owner name ty =>
      rcases hPermitted.fields ty rfl with ⟨-, hReadable⟩
      rcases Step.exists_of_isReadable hReadable with
        ⟨d, t, hText, hRead⟩
      exact measured_putstatic hMeasured (hReached rfl) hBounded
        hEntries hText hRead
  | invoke kind owner name descriptor =>
      exact measured_invoke hMeasured (hReached rfl) hBounded hEntries
  | box ty =>
      exact measured_box hMeasured (hReached rfl) hBounded hEntries
  | unbox ty =>
      exact measured_unbox hMeasured (hReached rfl) hBounded hEntries
  | newLabel => exact ⟨ks, measured_newLabel hMeasured⟩
  | bind l =>
      refine ⟨ks, hMeasured.bind (hPermitted.made l rfl) ?_⟩
      intro hOpen e he
      exact hPermitted.joins l rfl hOpen e he
  | goto l =>
      refine measured_goto hMeasured (hPermitted.made l rfl) ?_
      intro e he
      exact hPermitted.joins l rfl (hReached rfl) e he
  | ifnull l =>
      refine hMeasured.branch (c := .ifNull) (hReached rfl)
        ((Step.safe_run (.ifnull l) m).sound hSound) nofun hEntries
        (hPermitted.made l rfl) ?_
      intro e he
      exact hPermitted.joins l rfl (hReached rfl) e he
  | ifnonnull l =>
      refine hMeasured.branch (c := .ifNonNull) (hReached rfl)
        ((Step.safe_run (.ifnonnull l) m).sound hSound) nofun hEntries
        (hPermitted.made l rfl) ?_
      intro e he
      exact hPermitted.joins l rfl (hReached rfl) e he
  | returnValue ty =>
      exact measured_returnValue hMeasured hBounded hEntries

/- Permitted steps leave it measured, however many there are. -/
theorem Measured.runAll
    {steps : List Step}
    (hMeasured : Measured m ks)
    (hPermitted : Step.Always Step.Permitted steps m)
    (hFaithful : Step.Always Step.Faithful steps m) :
    ∃ ks', Measured (Step.runAll steps m) ks' := by
  induction steps generalizing m ks with
  | nil => exact ⟨ks, hMeasured⟩
  | cons s steps ih =>
      rcases hMeasured.apply hPermitted.1 hFaithful.1 with
        ⟨ks', hNext⟩
      exact ih hNext hPermitted.2 hFaithful.2

end Runs

end Stratagem

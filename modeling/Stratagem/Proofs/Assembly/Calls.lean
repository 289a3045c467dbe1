import Stratagem.Proofs.Assembly.Operands
import Stratagem.Proofs.Jvm.MethodDescriptor

/-
  Writing what works on the stack, on objects and on fields,
  and calls.

  Key definitions include:
    * `castActions`
    * `boxActions`
    * `unboxActions`
    * `loadActions`

  Main declarations:
    * `emits_new`
    * `emits_checkcast`
    * `emits_invoke`
    * `emits_box`
    * `emits_unbox`
    * `emits_returnValue`
-/

namespace Stratagem

open Jvm Emitter

variable {m m' : MethodDraft} {u : Unit}

------------------------------------------------------------
-- Stack and Objects
------------------------------------------------------------

theorem emits_dup
    (hRun : Yields dup m u m') :
    Emits m [.dup] [] m' := by
  unfold dup at hRun
  simp only [yields_bind, yields_write, yields_pop, yields_push,
    Prod.ext_iff] at hRun
  rcases hRun with
    ⟨_, _, rfl, v, _, ⟨rfl, rfl⟩, _, _, rfl, rfl⟩
  refine Emits.act (p := m.pool)
    (i := { offset := m.offset, opcode := .dup }) (.refl _) rfl
    ⟨by simp, rfl⟩ rfl (by simp [Action.slot?])
    (((MethodDraft.SameCode.refl _).pop.push _).push _) ?_
  rintro frame s s' hTracks hCheck hHigh -
  simp only [Action.check, TypeState.popThen_eq_some] at hCheck
  rcases hCheck with ⟨w, r, rfl, hIf⟩
  split at hIf
  case isTrue hNarrow =>
      cases hIf
      rcases hTracks.pop with ⟨hRest, hWidth, hKnown⟩
      have hOne : (r.push w).height ≤ 65535 := by
        rw [TypeState.height_push] at hHigh
        omega
      exact (hRest.push hWidth hKnown hOne).push hWidth hKnown hHigh
  case isFalse => cases hIf

/- The class that an index of the pool leads to. -/
theorem class?_of_index
    {p : ConstantPool}
    {opcode : Opcode}
    {offset : Nat}
    {index : UInt16}
    {name : String}
    (hClass : p.classAt? index = some name)
    (hTakes : opcode.takesConstant = true)
    (hOther : opcode ≠ .ldc) :
    Instruction.class? p { offset, opcode, operands := be16 index } =
      some name := by
  have hWord : Instruction.word? {
      offset, opcode, operands := be16 index } = some index :=
    Instruction.word?_be16 [] (by simp)
  simp [Instruction.class?, Instruction.constant?, hOther, hTakes,
    hWord, hClass]

theorem emits_new
    {name : String}
    (hSound : m.Sound)
    (hRun : Yields (Emitter.new name) m u m') :
    Emits m [.new m.offset name] [] m' := by
  unfold Emitter.new at hRun
  simp only [yields_bind, yields_pooled, yields_get, yields_write,
    yields_push] at hRun
  rcases hRun with
    ⟨index, _, ⟨p, hPool, rfl⟩, _, _, ⟨rfl, rfl⟩, _, _, rfl, rfl⟩
  have hClass := Pooling.classRef_classAt? hSound.pool.indexed hPool
  refine Emits.act (p := p)
    (i := { offset := m.offset, opcode := .new
            operands := be16 index })
    ((Pooling.grows_classRef name).of_yields hPool) rfl
    ⟨by simp, rfl⟩ ?_ (by simp [Action.slot?])
    ((MethodDraft.SameCode.refl _).push _) ?_
  · have hNamed : Instruction.class? p
        { offset := m.offset, opcode := .new
          operands := be16 index } = some name :=
      class?_of_index hClass rfl (by simp)
    exact congrArg (Option.map (Action.new m.offset)) hNamed
  · rintro frame s s' hTracks hCheck hHigh -
    simp only [Action.check] at hCheck
    split at hCheck
    case isTrue => cases hCheck
    case isFalse =>
        cases hCheck
        exact hTracks.push rfl (by simp) hHigh

/- What makes the top of the stack a value of a type. -/
def castActions
    (t : Ty) : List Action :=
  match VType.ofTy t with
  | .object name =>
      if name = "java/lang/Object" then [] else [.checkcast name]
  | _ => []

theorem emits_checkcast
    {t : Ty}
    (hSound : m.Sound)
    (hRun : Yields (checkcast t) m u m') :
    Emits m (castActions t) [] m' := by
  unfold checkcast at hRun
  unfold castActions
  cases hTy : VType.ofTy t with
  | object name =>
      rw [hTy] at hRun
      dsimp only at hRun ⊢
      split at hRun
      case isTrue hObject =>
          rw [if_pos hObject]
          rcases yields_pure.mp hRun with ⟨-, rfl⟩
          exact .refl _
      case isFalse hOther =>
          rw [if_neg hOther]
          simp only [yields_bind, yields_pooled, yields_write,
            yields_discard, yields_pop, yields_push,
            Prod.ext_iff] at hRun
          rcases hRun with ⟨index, _, ⟨p, hPool, rfl⟩, _, _, rfl,
            _, _, ⟨_, -, rfl⟩, rfl⟩
          have hClass :=
            Pooling.classRef_classAt? hSound.pool.indexed hPool
          refine Emits.act (p := p)
            (i := { offset := m.offset, opcode := .checkcast
                    operands := be16 index })
            ((Pooling.grows_classRef name).of_yields hPool) rfl
            ⟨by simp, rfl⟩ ?_ (by simp [Action.slot?])
            ((MethodDraft.SameCode.refl _).pop.push _) ?_
          · have hNamed : Instruction.class? p
                { offset := m.offset, opcode := .checkcast
                  operands := be16 index } = some name :=
              class?_of_index hClass rfl (by simp)
            exact congrArg (Option.map Action.checkcast) hNamed
          · rintro frame s s' hTracks hCheck hHigh -
            simp only [Action.check, TypeState.popThen_eq_some]
              at hCheck
            rcases hCheck with ⟨w, r, rfl, hIf⟩
            split at hIf
            case isTrue =>
                cases hIf
                exact hTracks.pop.1.push rfl (by simp) hHigh
            case isFalse => cases hIf
  | _ =>
      rw [hTy] at hRun
      exact absurd hRun yields_throw

/- Writing behind a pop is writing before it. -/
theorem sameCode_write_pop
    (m : MethodDraft)
    (opcode : Opcode) :
    (m.write opcode []).SameCode (m.pop.2.write opcode []) := by
  have hPop := (MethodDraft.SameCode.refl m).pop
  refine ⟨hPop.pool, hPop.header, hPop.labels, hPop.locals, ?_, ?_,
    hPop.higher⟩
  · simp only [MethodDraft.write, MethodDraft.append, hPop.lines,
      hPop.offset]
  · simp only [MethodDraft.write, MethodDraft.append, hPop.offset]

/- An instruction that never goes on. -/
theorem emits_last
    {opcode : Opcode}
    {a : Action}
    (hSame : MethodDraft.SameCode (m.write opcode []) m')
    (hLegal : Instruction.Legal { offset := m.offset, opcode })
    (hAction : Instruction.action? m.pool
      { offset := m.offset, opcode } = some a)
    (hLast : a.isTerminator = true)
    (hNone : a.slot? = none) :
    Emits m [a] [] m' := by
  refine Emits.act (p := m.pool) (.refl _) rfl hLegal hAction ?_
    hSame ?_
  · intro slot width hSlot
    rw [hNone] at hSlot
    cases hSlot
  · intro frame s s' _ _ _ hGoesOn
    rw [hLast] at hGoesOn
    cases hGoesOn

theorem emits_athrow
    (hRun : Yields athrow m u m') :
    Emits m [.throw] [] m' := by
  unfold athrow at hRun
  simp only [yields_bind, yields_write, yields_discard, yields_pop,
    yields_modify, Prod.ext_iff] at hRun
  rcases hRun with ⟨_, _, rfl, _, _, ⟨_, -, rfl⟩, rfl⟩
  exact emits_last (MethodDraft.SameCode.refl _).pop.terminate
    ⟨by simp, rfl⟩ rfl rfl rfl

/- What ends a method with a result of a type. -/
def returnAction
    (t : Ty) : Action :=
  if t == .primitive .void then .returnVoid
  else .returnValue (.ofTy t)

theorem emits_returnValue
    {t : Ty}
    (hRun : Yields (returnValue t) m u m') :
    Emits m [returnAction t] [] m' := by
  unfold returnValue at hRun
  unfold returnAction
  split at hRun
  case isTrue hVoid =>
      rw [if_pos hVoid]
      simp only [yields_bind, yields_write, yields_modify] at hRun
      rcases hRun with ⟨_, _, rfl, rfl⟩
      exact emits_last (MethodDraft.SameCode.refl _).terminate
        ⟨by simp, rfl⟩ rfl rfl rfl
  case isFalse hValue =>
      rw [if_neg hValue]
      simp only [yields_bind, yields_write, yields_discard,
        yields_pop, yields_modify, Prod.ext_iff] at hRun
      rcases hRun with ⟨_, _, ⟨_, -, rfl⟩, _, _, rfl, rfl⟩
      exact emits_last (sameCode_write_pop m _).terminate
        ⟨by simp, rfl⟩ rfl rfl rfl

theorem emits_loadThis
    {t : Ty}
    (hSound : m.Sound)
    (hType : m.types[0]? = some t)
    (hObject : m.isStatic = false)
    (hRun : Yields loadThis m u m') :
    Emits m [.load (.ofTy t) 0] [] m' := by
  unfold loadThis at hRun
  simp only [yields_bind, yields_get] at hRun
  rcases hRun with ⟨_, m, ⟨rfl, rfl⟩, hRun⟩
  have hThis : m.this? = some ⟨0⟩ := by
    simp [MethodDraft.this?, hObject]
  rw [hThis] at hRun
  exact emits_load (l := ⟨0⟩) hSound hType hRun

------------------------------------------------------------
-- Fields
------------------------------------------------------------

/- The member that an index of the pool leads to. -/
theorem member?_of_index
    {p : ConstantPool}
    {index : UInt16}
    {ref : MemberRef}
    (opcode : Opcode)
    (offset : Nat)
    (fits : MemberKind → Bool)
    (more : List UInt8)
    (hMember : p.memberAt? index = some ref)
    (hFits : fits ref.kind = true)
    (hTakes : opcode.takesConstant = true)
    (hOther : opcode ≠ .ldc) :
    Instruction.member? p fits
      { offset, opcode, operands := be16 index ++ more } =
        some ref := by
  have hWord : Instruction.word? {
      offset, opcode, operands := be16 index ++ more } =
        some index :=
    Instruction.word?_be16 _ rfl
  simp [Instruction.member?, Instruction.constant?, hOther, hTakes,
    hWord, hMember, hFits]

/- The field with a name and a type. -/
def MemberRef.ofField
    (owner name descriptor : String) : MemberRef :=
  { kind := .field, owner, name, descriptor }

theorem yields_field
    {owner name d : String}
    {t : Ty}
    {index : UInt16}
    (hSound : m.Sound)
    (hText : t.descriptor = .ok d)
    (hRun : Yields (field owner name t) m index m') :
    ∃ p, m.pool.Grown p ∧ m' = { m with pool := p } ∧
      p.memberAt? index = some (.ofField owner name d) := by
  unfold field at hRun
  simp only [yields_bind, yields_property, yields_pooled] at hRun
  rcases hRun with ⟨d', _, ⟨hText', rfl⟩, p, hPool, rfl⟩
  rw [hText] at hText'
  cases hText'
  exact ⟨p, (Pooling.grows_member _ _ _ _).of_yields hPool, rfl,
    Pooling.member_memberAt? hSound.pool.indexed hPool⟩

theorem emits_getstatic
    {owner name d : String}
    {t : Ty}
    (hSound : m.Sound)
    (hText : t.descriptor = .ok d)
    (hRun : Yields (getstatic owner name t) m u m') :
    Emits m [.getstatic (.ofField owner name d)] [] m' := by
  unfold getstatic at hRun
  simp only [yields_bind, yields_write, yields_push] at hRun
  rcases hRun with ⟨index, _, hField, _, _, rfl, rfl⟩
  rcases yields_field hSound hText hField with
    ⟨p, hGrown, rfl, hMember⟩
  refine Emits.act (p := p)
    (i := { offset := m.offset, opcode := .getstatic
            operands := be16 index }) hGrown rfl ⟨by simp, rfl⟩ ?_
    (by simp [Action.slot?]) ((MethodDraft.SameCode.refl _).push _) ?_
  · have hNamed := member?_of_index .getstatic m.offset (· == .field) []
      hMember rfl rfl (by simp)
    rw [List.append_nil] at hNamed
    exact congrArg (Option.map Action.getstatic) hNamed
  · rintro frame s s' hTracks hCheck hHigh -
    rcases Option.map_eq_some_iff.mp hCheck with ⟨v, hType, rfl⟩
    have hv := Option.filter_eq_some_iff.mp hType
    have hTy : VType.ofTy v = VType.ofTy t :=
      Ty.ofTy_eq_of_descriptor
        (Ty.descriptor_of_ofDescriptor (toOption_eq_some.mp hv.1))
        hText
    have hFamily := VType.family?_ofTy hv.2
    rw [hTy] at hHigh ⊢
    rw [hTy] at hFamily
    refine hTracks.push rfl ?_ hHigh
    intro hTop
    rw [hTop] at hFamily
    cases hFamily

theorem emits_putstatic
    {owner name d : String}
    {t : Ty}
    (hSound : m.Sound)
    (hText : t.descriptor = .ok d)
    (hRun : Yields (putstatic owner name t) m u m') :
    Emits m [.putstatic (.ofField owner name d)] [] m' := by
  unfold putstatic at hRun
  simp only [yields_bind, yields_write, yields_discard, yields_pop,
    Prod.ext_iff] at hRun
  rcases hRun with ⟨index, _, hField, _, _, rfl, _, -, rfl⟩
  rcases yields_field hSound hText hField with
    ⟨p, hGrown, rfl, hMember⟩
  refine Emits.act (p := p)
    (i := { offset := m.offset, opcode := .putstatic
            operands := be16 index }) hGrown rfl ⟨by simp, rfl⟩ ?_
    (by simp [Action.slot?]) (MethodDraft.SameCode.refl _).pop ?_
  · have hNamed := member?_of_index .putstatic m.offset (· == .field) []
      hMember rfl rfl (by simp)
    rw [List.append_nil] at hNamed
    exact congrArg (Option.map Action.putstatic) hNamed
  · rintro frame s s' hTracks hCheck hHigh -
    simp only [Action.check, TypeState.popThen_eq_some,
      Option.bind_eq_some_iff] at hCheck
    rcases hCheck with ⟨w, r, rfl, t, _, hIf⟩
    split at hIf
    case isTrue =>
        cases hIf
        exact hTracks.pop.1
    case isFalse => cases hIf

------------------------------------------------------------
-- Calls
------------------------------------------------------------

/- The method that a call names. -/
def MemberRef.ofCall
    (kind : CallKind)
    (owner name descriptor : String) : MemberRef :=
  { kind := if kind = .interface then .interfaceMethod else .method
    owner, name, descriptor }

/- Widths are all that tracking depends on. -/
theorem MethodDraft.Tracks.congr
    {vs ws : List VType}
    (hTracks : m.Tracks vs)
    (hWidths : ws.map VType.slots = vs.map VType.slots) :
    m.Tracks ws := by
  exact ⟨hTracks.stack.trans hWidths.symm, hTracks.known,
    hTracks.depth.trans (VType.totalSlots_congr hWidths.symm),
    hTracks.high, hTracks.held, hTracks.values⟩

/- Arguments that were taken stood on top of the rest. -/
theorem Action.popArgs_split
    {ts stack rest : List VType}
    (hPop : Action.popArgs ts stack = some rest) :
    ∃ taken, stack = taken ++ rest ∧
      taken.length = ts.length := by
  induction ts generalizing stack with
  | nil =>
      cases hPop
      exact ⟨[], rfl, rfl⟩
  | cons t ts ih =>
      cases stack with
      | nil => cases hPop
      | cons v stack =>
          simp only [Action.popArgs] at hPop
          split at hPop
          case isTrue =>
              rcases ih hPop with ⟨taken, rfl, hLength⟩
              exact ⟨v :: taken, rfl, by simp [hLength]⟩
          case isFalse => cases hPop

/- A receiver that was constructed is one slot wide. -/
theorem Action.construct_split
    {frame : MethodFrame}
    {owner : String}
    {s s' : TypeState}
    (hConstruct : Action.construct frame owner s = some s') :
    ∃ v rest, s.stack = v :: rest ∧ v.slots = 1 ∧
      s'.stack.map VType.slots = rest.map VType.slots := by
  have hWidths : ∀ (r : TypeState) (old : VType) (name : String),
      old.slots = 1 →
        (r.replace old (.object name)).stack.map VType.slots =
          r.stack.map VType.slots := by
    intro r old name hOld
    simp only [TypeState.replace, List.map_map]
    refine List.map_congr_left fun v _ => ?_
    simp only [Function.comp]
    split
    case isTrue hSame =>
        rw [hSame, hOld]
        rfl
    case isFalse => rfl
  unfold Action.construct at hConstruct
  split at hConstruct
  case h_1 o rest hStack =>
      split at hConstruct
      case isTrue =>
          cases hConstruct
          exact ⟨_, rest, hStack, rfl, hWidths _ _ _ rfl⟩
      case isFalse => cases hConstruct
  case h_2 rest hStack =>
      split at hConstruct
      case isTrue =>
          cases hConstruct
          exact ⟨_, rest, hStack, rfl, hWidths _ _ _ rfl⟩
      case isFalse => cases hConstruct
  case h_3 => cases hConstruct

theorem keeps_popReceiver
    (kind : CallKind)
    (owner name : String) :
    Keeps MethodDraft.SameCode (popReceiver kind owner name) := by
  unfold popReceiver
  split
  · exact Keeps.pure .refl ()
  · refine Keeps.bind .trans
      (fun m => (MethodDraft.SameCode.refl m).pop) fun receiver => ?_
    split
    · exact Keeps.modify fun m =>
        (MethodDraft.SameCode.refl m).replace _ _
    · exact Keeps.pure .refl ()

/- The receiver is taken from what is tracked, too. -/
theorem tracks_popReceiver
    {frame : MethodFrame}
    {kind : CallKind}
    {owner name descriptor : String}
    {s s' : TypeState}
    (hTracks : m.Tracks s.stack)
    (hCheck : Action.popReceiver frame kind
      (.ofCall kind owner name descriptor) s = some s')
    (hRun : Yields (popReceiver kind owner name) m u m') :
    m'.Tracks s'.stack := by
  unfold popReceiver at hRun
  unfold Action.popReceiver at hCheck
  split at hRun
  case isTrue hStatic =>
      rw [if_pos hStatic] at hCheck
      rcases yields_pure.mp hRun with ⟨-, rfl⟩
      cases hCheck
      exact hTracks
  case isFalse hKind =>
      rw [if_neg hKind] at hCheck
      rcases yields_bind.mp hRun with ⟨v, m₁, hPop, hRest⟩
      rw [yields_pop, Prod.ext_iff] at hPop
      rcases hPop with ⟨rfl, rfl⟩
      by_cases hInit : name = "<init>"
      · rw [if_pos (c := (MemberRef.ofCall kind owner name
          descriptor).name = "<init>") hInit] at hCheck
        split at hCheck
        case isTrue hSpecial =>
            rcases Action.construct_split hCheck with
              ⟨w, rest, hStack, hOne, hWidths⟩
            rw [hStack] at hTracks
            rcases hTracks.pop with ⟨hPopped, hSlots, hKnown⟩
            rw [if_pos ⟨hSpecial, hInit⟩] at hRest
            rw [yields_modify.mp hRest]
            exact (hPopped.replace _ hKnown
              (hSlots.trans hOne)).congr hWidths
        case isFalse => cases hCheck
      · rw [if_neg (c := (MemberRef.ofCall kind owner name
          descriptor).name = "<init>") hInit] at hCheck
        rcases Option.map_eq_some_iff.mp hCheck with
          ⟨rest, hArgs, rfl⟩
        rcases Action.popArgs_split hArgs with
          ⟨taken, hStack, hLength⟩
        rcases List.length_eq_one_iff.mp hLength with ⟨w, rfl⟩
        rw [hStack] at hTracks
        rw [if_neg (fun hBoth => hInit hBoth.2)] at hRest
        rcases yields_pure.mp hRest with ⟨-, rfl⟩
        exact hTracks.pop.1

theorem beq_void
    (t : Ty) :
    (t == .primitive .void) = t.isVoid := by
  change Ty.beq t (.primitive .void) = t.isVoid
  cases t with
  | primitive p => cases p <;> simp [Ty.beq, Ty.isVoid]
  | _ => simp [Ty.beq, Ty.isVoid]

theorem bne_void
    {t : Ty}
    (hResult : (t.isValue || t.isVoid) = true) :
    (t != .primitive .void) = t.isValue := by
  rw [bne, beq_void]
  cases t with
  | primitive p => cases p <;> rfl
  | argument a => cases hResult
  | _ => rfl

/- Calling a method whose descriptor can be read. -/
theorem emits_invoke
    {kind : CallKind}
    {owner name descriptor : String}
    (hSound : m.Sound)
    (hRun : Yields (invoke kind owner name descriptor) m u m') :
    Emits m [.invoke kind (.ofCall kind owner name descriptor)] []
      m' := by
  unfold invoke at hRun
  split at hRun
  case h_1 => exact absurd hRun yields_throw
  case h_2 params result hParse =>
      simp only [yields_bind, yields_pooled, yields_writeCall,
        yields_modify] at hRun
      rcases hRun with ⟨index, _, ⟨p, hPool, rfl⟩, _, _, rfl, _, _,
        rfl, _, m₁, hReceiver, hResult⟩
      have hMember := Pooling.member_memberAt? hSound.pool.indexed hPool
      have hTaken := (((MethodDraft.SameCode.refl _).addUp
        (countedSlots kind params)).popMany params.length).trans
          ((keeps_popReceiver _ _ _).of_yields hReceiver)
      refine Emits.act (p := p)
        (i := { offset := m.offset, opcode := kind.opcode
                operands := be16 index ++
                  countOperands kind params })
        ((Pooling.grows_member _ _ _ _).of_yields hPool) rfl ?_ ?_
        (by simp [Action.slot?]) ?_ ?_
      · cases kind <;> exact ⟨by simp [CallKind.opcode], rfl⟩
      · cases kind with
        | virtual =>
            exact congrArg (Option.map (Action.invoke .virtual))
              (member?_of_index .invokevirtual m.offset (· != .field)
                _ hMember rfl rfl (by simp))
        | special =>
            exact congrArg (Option.map (Action.invoke .special))
              (member?_of_index .invokespecial m.offset (· != .field)
                _ hMember rfl rfl (by simp))
        | static =>
            exact congrArg (Option.map (Action.invoke .static))
              (member?_of_index .invokestatic m.offset (· != .field)
                _ hMember rfl rfl (by simp))
        | interface =>
            exact congrArg (Option.map (Action.invoke .interface))
              (member?_of_index .invokeinterface m.offset
                (· == .interfaceMethod) _ hMember rfl rfl (by simp))
      · split at hResult
        case isTrue =>
            rw [yields_push.mp hResult]
            exact hTaken.push _
        case isFalse =>
            rcases yields_pure.mp hResult with ⟨-, rfl⟩
            exact hTaken
      · rintro frame s s' hTracks hCheck hHigh -
        simp only [Action.check, Action.call, Option.bind_eq_bind,
          Option.bind_eq_some_iff] at hCheck
        rcases hCheck with ⟨⟨ps, r⟩, hTypes, rest, hArgs, s₁,
          hPopped, hEnd⟩
        rcases Option.filter_eq_some_iff.mp hTypes with
          ⟨hSame, hOk⟩
        rw [MemberRef.ofCall, hParse] at hSame
        cases hSame
        simp only [Bool.and_eq_true] at hOk
        rw [bne_void hOk.2] at hResult
        rcases Action.popArgs_split hArgs with
          ⟨taken, hStack, hLength⟩
        rw [hStack] at hTracks
        rw [List.length_reverse, List.length_map] at hLength
        have hBefore :=
          (hTracks.addUp (countedSlots kind params)).popMany
        rw [hLength] at hBefore
        have hAfter := tracks_popReceiver
          (s := { s with stack := rest }) hBefore hPopped hReceiver
        cases hValue : result.isValue with
        | true =>
            rw [hValue, if_pos rfl] at hResult hEnd
            cases hEnd
            rw [yields_push.mp hResult]
            have hFamily := VType.family?_ofTy hValue
            refine hAfter.push rfl ?_ hHigh
            intro hTop
            rw [hTop] at hFamily
            cases hFamily
        | false =>
            rw [hValue, if_neg (by simp)] at hResult hEnd
            cases hEnd
            rcases yields_pure.mp hResult with ⟨-, rfl⟩
            exact hAfter

/- The method that wraps values of a primitive in a class. -/
def MemberRef.wrapping
    (p : Primitive)
    (name : String) : MemberRef :=
  .ofCall .static name "valueOf"
    ("(" ++ String.singleton p.letter ++ ")L" ++ name ++ ";")

/- The method that unwraps values of a primitive. -/
def MemberRef.unwrapping
    (p : Primitive)
    (name : String) : MemberRef :=
  .ofCall .virtual name (p.keyword ++ "Value")
    ("()" ++ String.singleton p.letter)

/- What wraps a primitive on top of the stack. -/
def boxActions : Ty → List Action
  | .primitive p =>
      match p.boxClass? with
      | some name => [.invoke .static (.wrapping p name)]
      | none => []
  | _ => []

/- What unwraps the top of the stack, or casts it to a class. -/
def unboxActions : Ty → List Action
  | .primitive p =>
      match p.boxClass? with
      | some name =>
          [.checkcast name, .invoke .virtual (.unwrapping p name)]
      | none => []
  | t => castActions t

/-
  What loads objects as values of types.  An object takes one
  slot, and they follow one another.
-/
def loadActions : Nat → List Ty → List Action
  | _, [] => []
  | slot, t :: ts =>
      .load .ref slot :: unboxActions t ++ loadActions (slot + 1) ts

theorem descriptor_ofClass
    (name : String) :
    (Ty.ofClass name).descriptor = .ok ("L" ++ name ++ ";") := by
  rw [Ty.descriptor_eq_ok]
  simp [Ty.ofClass, Ty.renderDescriptor, ClassTy.renderName]

theorem descriptor_primitive
    (p : Primitive) :
    (Ty.primitive p).descriptor =
      .ok (String.singleton p.letter) := by
  rw [Ty.descriptor_eq_ok]
  simp [Ty.renderDescriptor]

theorem internalName_ofClass
    (name : String) :
    (Ty.ofClass name).internalName = .ok name := by
  simp [Ty.ofClass, Ty.internalName, ClassTy.internalName,
    ClassTy.renderName]

theorem emits_box
    {t : Ty}
    (hSound : m.Sound)
    (hRun : Yields (box t) m u m') :
    Emits m (boxActions t) [] m' := by
  unfold box at hRun
  cases t with
  | primitive p =>
      simp only [boxActions]
      cases hClass : p.boxClass? with
      | none =>
          simp only [Ty.boxed?, hClass, Option.map_none] at hRun
          rcases yields_pure.mp hRun with ⟨-, rfl⟩
          exact .refl _
      | some name =>
          simp only [Ty.boxed?, hClass, Option.map_some,
            yields_bind, yields_property, internalName_ofClass,
            descriptor_ofClass, descriptor_primitive] at hRun
          rcases hRun with ⟨_, m, ⟨hOwner, rfl⟩, _, m,
            ⟨hParam, rfl⟩, _, m, ⟨hResult, rfl⟩, hCall⟩
          cases hOwner
          cases hParam
          cases hResult
          have hCode := emits_invoke hSound hCall
          have hText : MemberRef.ofCall .static name "valueOf"
              (toString "(" ++ toString (String.singleton p.letter) ++
                toString ")" ++ toString ("L" ++ name ++ ";")) =
              .wrapping p name := by
            unfold MemberRef.wrapping
            congr 1
            apply String.toList_injective
            simp [toString]
          rw [hText] at hCode
          exact hCode
  | _ =>
      rcases yields_pure.mp hRun with ⟨-, rfl⟩
      exact .refl _

theorem unboxMethod?_of_boxClass?
    {p : Primitive}
    {name : String}
    (hClass : p.boxClass? = some name) :
    (Ty.primitive p).unboxMethod? = some (p.keyword ++ "Value") ∧
      castActions (.ofClass name) = [.checkcast name] := by
  cases p <;> cases hClass <;> exact ⟨rfl, rfl⟩

theorem emits_unbox
    {t : Ty}
    (hSound : m.Sound)
    (hRun : Yields (unbox t) m u m') :
    Emits m (unboxActions t) [] m' := by
  unfold unbox at hRun
  cases t with
  | primitive p =>
      simp only [unboxActions]
      cases hClass : p.boxClass? with
      | none =>
          simp only [Ty.boxed?, hClass, Option.map_none] at hRun
          have hCode := emits_checkcast hSound hRun
          cases p <;> cases hClass
          exact hCode
      | some name =>
          rcases unboxMethod?_of_boxClass? hClass with
            ⟨hMethod, hCast⟩
          simp only [Ty.boxed?, hClass, Option.map_some, hMethod,
            yields_bind, yields_property, internalName_ofClass,
            descriptor_primitive] at hRun
          rcases hRun with ⟨_, m₁, hFirst, _, m₁, ⟨hOwner, rfl⟩, _,
            m₁, ⟨hResult, rfl⟩, hCall⟩
          cases hOwner
          cases hResult
          have hCode := emits_checkcast hSound hFirst
          rw [hCast] at hCode
          have hSound₁ :=
            (safe_checkcast _).of_yields hFirst hSound
          exact hCode.trans (emits_invoke hSound₁ hCall)
  | _ => exact emits_checkcast hSound hRun

/- Code that makes an exception with a text. -/
def throwActions
    (offset : Nat)
    (name text : String) : List Action :=
  [.new offset name, .dup, .push (.string text),
    .invoke .special (.ofCall .special name "<init>"
      "(Ljava/lang/String;)V")]

/- The exception is made, and then it is thrown. -/
theorem emits_exception
    {name text : String}
    {m₁ m₂ m₃ m₄ : MethodDraft}
    (hSound : m.Sound)
    (hNew : Yields (new name) m u m₁)
    (hDup : Yields dup m₁ u m₂)
    (hText : Yields (ldcString text) m₂ u m₃)
    (hCall : Yields (invoke .special name "<init>"
      "(Ljava/lang/String;)V") m₃ u m₄)
    (hThrow : Yields athrow m₄ u m') :
    Emits m (throwActions m.offset name text) [] m₄ ∧
      Emits m₄ [.throw] [] m' ∧ m'.Sound := by
  have hSound₁ := (safe_new _).of_yields hNew hSound
  have hSound₂ := safe_dup.of_yields hDup hSound₁
  have hSound₃ := (safe_ldcString _).of_yields hText hSound₂
  have hSound₄ := (safe_invoke _ _ _ _).of_yields hCall hSound₃
  refine ⟨?_, emits_athrow hThrow,
    safe_athrow.of_yields hThrow hSound₄⟩
  exact (((emits_new hSound hNew).trans (emits_dup hDup)).trans
    (emits_ldcString hSound₂.pool.indexed hText)).trans
      (emits_invoke hSound₃ hCall)

end Stratagem

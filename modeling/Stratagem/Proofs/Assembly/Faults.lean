import Stratagem.Proofs.Assembly.Effects

/-
  Drafts that keep no fault.

  A step that takes a value from an empty stack keeps a fault,
  and no later step takes it back.  So if no fault is kept in
  the end, every step found on the stack what it took.

  Key definitions include:
    * `MethodDraft.Exchanged`

  Main declarations:
    * `exchanged_invoke`
    * `exchanged_unbox`
-/

namespace Stratagem

open Jvm Emitter

/-
  A draft without a fault became another by taking so many
  values from its stack and pushing others.
-/
structure MethodDraft.Exchanged
    (m : MethodDraft)
    (taken given : Nat)
    (m' : MethodDraft) : Prop where
  fault : m.fault = none
  enough : taken ≤ m.stack.length
  height : m'.stack.length + taken = m.stack.length + given

namespace MethodDraft

variable {m m₁ m' : MethodDraft} {a b c d : Nat}

theorem Exchanged.refl
    (hFault : m.fault = none) :
    m.Exchanged 0 0 m :=
  ⟨hFault, Nat.zero_le _, rfl⟩

/- What is given first may be taken next. -/
theorem Exchanged.trans
    (hFirst : m.Exchanged a b m₁)
    (hNext : m₁.Exchanged c d m') :
    m.Exchanged (a + (c - b)) (d + (b - c)) m' := by
  have hEnough := hFirst.enough
  have hHeight := hFirst.height
  have hEnough' := hNext.enough
  have hHeight' := hNext.height
  exact ⟨hFirst.fault, by omega, by omega⟩

theorem exchanged_pop
    (hFault : m.pop.2.fault = none) :
    m.Exchanged 1 0 m.pop.2 := by
  cases hStack : m.stack with
  | nil =>
      simp only [pop, hStack, blame] at hFault
      cases hKept : m.fault <;> simp [hKept] at hFault
  | cons v rest =>
      rw [pop_eq hStack] at hFault ⊢
      refine ⟨hFault, ?_, ?_⟩ <;> simp [hStack]

theorem exchanged_popMany
    (n : Nat)
    (hFault : (m.popMany n).fault = none) :
    m.Exchanged n 0 (m.popMany n) := by
  induction n generalizing m with
  | zero => exact .refl hFault
  | succ n ih =>
      have hRest := ih (m := m.pop.2) hFault
      have hFirst := exchanged_pop hRest.fault
      have hBoth := hFirst.trans hRest
      rw [Nat.sub_zero, Nat.zero_sub, Nat.add_comm 1] at hBoth
      exact hBoth

end MethodDraft

section Steps

variable {m m' : MethodDraft} {u : Unit} {t : Ty}

theorem exchanged_load
    {l : Local}
    (hType : m.types[l.index]? = some t)
    (hRun : Yields (load l) m u m')
    (hFault : m'.fault = none) :
    m.Exchanged 0 1 m' := by
  rw [MethodDraft.Sound.types_getElem?] at hType
  rcases Option.map_eq_some_iff.mp hType with ⟨v, hLocal, -⟩
  unfold load at hRun
  simp only [yields_bind, yields_get] at hRun
  rcases hRun with ⟨_, m, ⟨rfl, rfl⟩, hRun⟩
  rw [hLocal] at hRun
  simp only [onSlot_eq, yields_bind, yields_get, yields_modify,
    yields_push] at hRun
  rcases hRun with ⟨_, m, ⟨rfl, rfl⟩, _, _, rfl, rfl⟩
  exact ⟨hFault, Nat.zero_le _, rfl⟩

theorem exchanged_loadThis
    (hType : m.types[0]? = some t)
    (hObject : m.isStatic = false)
    (hRun : Yields loadThis m u m')
    (hFault : m'.fault = none) :
    m.Exchanged 0 1 m' := by
  unfold loadThis at hRun
  simp only [yields_bind, yields_get] at hRun
  rcases hRun with ⟨_, m, ⟨rfl, rfl⟩, hRun⟩
  have hThis : m.this? = some ⟨0⟩ := by
    simp [MethodDraft.this?, hObject]
  rw [hThis] at hRun
  exact exchanged_load (l := ⟨0⟩) hType hRun hFault

theorem exchanged_checkcast
    (hRun : Yields (checkcast t) m u m')
    (hFault : m'.fault = none) :
    m.Exchanged 0 0 m' := by
  unfold checkcast at hRun
  cases hTy : VType.ofTy t with
  | object name =>
      rw [hTy] at hRun
      dsimp only at hRun
      split at hRun
      case isTrue =>
          rcases yields_pure.mp hRun with ⟨-, rfl⟩
          exact .refl hFault
      case isFalse =>
          simp only [yields_bind, yields_pooled, yields_write,
            yields_discard, yields_pop, yields_push,
            Prod.ext_iff] at hRun
          rcases hRun with ⟨index, _, ⟨p, -, rfl⟩, _, _, rfl, _, _,
            ⟨_, -, rfl⟩, rfl⟩
          have hPop := MethodDraft.exchanged_pop hFault
          have hHeight := hPop.height
          exact ⟨hPop.fault, Nat.zero_le _, hHeight⟩
  | _ =>
      rw [hTy] at hRun
      exact absurd hRun yields_throw

theorem exchanged_popReceiver
    {kind : CallKind}
    {owner name : String}
    (hRun : Yields (popReceiver kind owner name) m u m')
    (hFault : m'.fault = none) :
    m.Exchanged kind.receivers 0 m' := by
  unfold popReceiver at hRun
  unfold CallKind.receivers
  split at hRun
  case isTrue hStatic =>
      rcases yields_pure.mp hRun with ⟨-, rfl⟩
      rw [if_pos hStatic]
      exact .refl hFault
  case isFalse hObject =>
      rw [if_neg hObject]
      simp only [yields_bind, yields_pop, Prod.ext_iff] at hRun
      rcases hRun with ⟨v, _, ⟨-, rfl⟩, hRest⟩
      split at hRest
      case isTrue =>
          rw [yields_modify] at hRest
          subst hRest
          have hPop := MethodDraft.exchanged_pop hFault
          refine ⟨hPop.fault, hPop.enough, ?_⟩
          simpa [MethodDraft.replace] using hPop.height
      case isFalse =>
          rcases yields_pure.mp hRest with ⟨-, rfl⟩
          exact MethodDraft.exchanged_pop hFault

/-
  A call takes what its descriptor says, and the receiver.
  Nothing is taken any more when the result is pushed.
-/
theorem exchanged_invoke
    {kind : CallKind}
    {owner name descriptor : String}
    (hRun : Yields (invoke kind owner name descriptor) m u m')
    (hFault : m'.fault = none) :
    ∃ params result,
      parseMethodDescriptor descriptor = .ok (params, result) ∧
      m.Exchanged (params.length + kind.receivers)
        (resultValues result).length m' := by
  unfold invoke at hRun
  split at hRun
  case h_1 => exact absurd hRun yields_throw
  case h_2 params result hReads =>
      simp only [yields_bind, yields_pooled, yields_writeCall,
        yields_modify, bne, beq_void] at hRun
      rcases hRun with ⟨index, _, ⟨p, -, rfl⟩, _, m₁, hWrite, _, m₂,
        hArgs, _, m₃, hReceiver, hResult⟩
      have hSame : m₁.fault = m.fault ∧ m₁.stack = m.stack := by
        rw [hWrite]
        exact ⟨rfl, rfl⟩
      have hLast : m₃.fault = none ∧ m'.stack.length =
          m₃.stack.length + (resultValues result).length := by
        unfold resultValues
        cases hVoid : result.isVoid with
        | true =>
            rw [hVoid] at hResult
            rcases yields_pure.mp hResult with ⟨-, rfl⟩
            exact ⟨hFault, rfl⟩
        | false =>
            rw [hVoid] at hResult
            rw [yields_push.mp hResult] at hFault ⊢
            exact ⟨hFault, rfl⟩
      have hSecond := exchanged_popReceiver hReceiver hLast.1
      have hFirst := MethodDraft.exchanged_popMany params.length
        (hArgs ▸ hSecond.fault)
      rw [← hArgs] at hFirst
      have hEnough := hFirst.enough
      have hHeight := hFirst.height
      have hEnough' := hSecond.enough
      have hHeight' := hSecond.height
      rw [hSame.2] at hEnough hHeight
      exact ⟨params, result, hReads, hSame.1 ▸ hFirst.fault,
        by omega, by omega⟩

theorem fault_of_box
    (hRun : Yields (box t) m u m')
    (hFault : m'.fault = none) :
    m.fault = none := by
  unfold box at hRun
  split at hRun
  case h_1 =>
      rcases yields_pure.mp hRun with ⟨-, rfl⟩
      exact hFault
  case h_2 =>
      simp only [yields_bind, yields_property] at hRun
      rcases hRun with ⟨_, _, ⟨-, rfl⟩, _, _, ⟨-, rfl⟩, _, _,
        ⟨-, rfl⟩, hCall⟩
      rcases exchanged_invoke hCall hFault with ⟨_, _, -, hBoth⟩
      exact hBoth.fault

theorem exchanged_unbox
    (hRun : Yields (unbox t) m u m')
    (hFault : m'.fault = none) :
    m.Exchanged 0 0 m' := by
  unfold unbox at hRun
  split at hRun
  case h_2 => exact exchanged_checkcast hRun hFault
  case h_1 wrapper method hBoxed hMethod =>
      cases t with
      | primitive p =>
          cases hClass : p.boxClass? with
          | none => simp [Ty.boxed?, hClass] at hBoxed
          | some name =>
              simp only [yields_bind, yields_property,
                descriptor_primitive] at hRun
              rcases hRun with ⟨_, m₁, hCast, owner, m₁,
                ⟨-, rfl⟩, _, m₁, ⟨hText, rfl⟩, hCall⟩
              cases hText
              rcases exchanged_invoke hCall hFault with
                ⟨params, result, hReads, hBoth⟩
              have hRest := exchanged_checkcast hCast hBoth.fault
              have hOne : params = [] ∧ result = .primitive p := by
                have hKnown : parseMethodDescriptor
                    (toString "()" ++
                      toString (String.singleton p.letter)) =
                    .ok ([], .primitive p) := by
                  cases p <;> cases hClass <;> rfl
                rw [hKnown] at hReads
                cases hReads
                exact ⟨rfl, rfl⟩
              rcases hOne with ⟨rfl, rfl⟩
              have hHeight := hBoth.height
              have hHeight' := hRest.height
              have hValues : (resultValues
                  (.primitive p)).length = 1 := by
                cases p <;> cases hClass <;> rfl
              have hReceiver : CallKind.receivers .virtual = 1 := rfl
              rw [List.length_nil] at hHeight
              exact ⟨hRest.fault, Nat.zero_le _, by omega⟩
      | _ => cases hBoxed

theorem fault_of_returnValue
    (hRun : Yields (returnValue t) m u m')
    (hFault : m'.fault = none) :
    m.fault = none := by
  unfold returnValue at hRun
  split at hRun
  case isTrue =>
      simp only [yields_bind, yields_write, yields_modify] at hRun
      rcases hRun with ⟨_, _, rfl, rfl⟩
      exact hFault
  case isFalse =>
      simp only [yields_bind, yields_write, yields_discard,
        yields_pop, yields_modify, Prod.ext_iff] at hRun
      rcases hRun with ⟨_, _, ⟨_, -, rfl⟩, _, _, rfl, rfl⟩
      exact (MethodDraft.exchanged_pop hFault).fault

theorem fault_of_finish
    {member : Member}
    (hRun : Yields MethodDraft.finish m member m') :
    m.fault = none := by
  unfold MethodDraft.finish at hRun
  simp only [yields_bind, yields_get] at hRun
  rcases hRun with ⟨_, m, ⟨rfl, rfl⟩, hRun⟩
  split at hRun
  case h_1 => exact absurd hRun yields_throw
  case h_2 => exact absurd hRun yields_throw
  case h_3 hNone _ => exact hNone

end Steps

end Stratagem

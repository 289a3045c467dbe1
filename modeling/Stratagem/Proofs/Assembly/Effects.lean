import Stratagem.Proofs.Assembly.Moves

/-
  What each step leaves on the stack, and what it writes.

  Key definitions include:
    * `CallKind.receivers`
    * `resultValues`
    * `dropAction`

  Main declarations:
    * `moves_iconst`
    * `moves_checkcast`
    * `moves_store`
    * `moves_invoke`
    * `writes_drop`
    * `writes_getstatic`
-/

namespace Stratagem

open Jvm Emitter

------------------------------------------------------------
-- Pushing
------------------------------------------------------------

section Pushing

variable {m n : MethodDraft} {v : VType}

theorem moves_write_push
    (opcode : Opcode)
    (operands : List UInt8)
    (hSame : n.SameWidths (m.push v)) :
    Moves (do write opcode operands; push v) m n :=
  ⟨hSame.widths, hSame.depth, hSame.maxStack, hSame.reachable,
    hSame.overflow⟩

theorem moves_ldc_push
    (index : UInt16)
    (hSame : n.SameWidths (m.push v)) :
    Moves (do ldc index; push v) m n := by
  unfold ldc
  split <;> exact moves_write_push _ _ hSame

/- A constant that is first added to the pool. -/
theorem moves_pooled_ldc
    {x : Pooling UInt16}
    (hGrows : x.Grows) :
    Moves (do let index ← pooled x; ldc index; push v) m
      (m.push v) :=
  moves_pooled hGrows fun index _ =>
    moves_ldc_push index ⟨rfl, rfl, rfl, rfl, rfl⟩

theorem moves_pushWide
    {c : Constant}
    (hShort : c.IsShort) :
    Moves (pushWide c v) m (m.push v) :=
  moves_pooled (Pooling.grows_add hShort) fun _ _ =>
    moves_write_push _ _ ⟨rfl, rfl, rfl, rfl, rfl⟩

theorem moves_iconst
    (k : Int32) :
    Moves (iconst k) m (m.push .int) := by
  unfold iconst
  dsimp only
  split
  · exact moves_write_push _ _ (.refl _)
  · split
    · exact moves_write_push _ _ (.refl _)
    · split
      · exact moves_write_push _ _ (.refl _)
      · exact moves_pooled_ldc
          (Pooling.grows_add (c := .integer k) trivial)

/- A constant in its short form, or else as given. -/
theorem moves_shortOr
    {count : Nat}
    {α : Type}
    [DecidableEq α]
    {long : Emitter Unit}
    (short : Fin count → Opcode)
    (value : Fin count → α)
    (x : α)
    (hLong : Moves long m (m.push v)) :
    Moves (shortOr short value x v long) m (m.push v) :=
  shortOr_cases (P := fun y => Moves y m (m.push v))
    (fun _ _ => moves_write_push _ _ (.refl _)) hLong

theorem moves_lconst
    (k : Int64) :
    Moves (lconst k) m (m.push .long) :=
  moves_shortOr _ _ _ (moves_pushWide (c := .long k) trivial)

theorem moves_fconst
    (x : Binary32) :
    Moves (fconst x) m (m.push .float) :=
  moves_shortOr _ _ _
    (moves_pooled_ldc (Pooling.grows_add (c := .float x) trivial))

theorem moves_dconst
    (x : Binary64) :
    Moves (dconst x) m (m.push .double) :=
  moves_shortOr _ _ _ (moves_pushWide (c := .double x) trivial)

theorem moves_new
    (name : String) :
    Moves (Emitter.new name) m
      (m.push (.uninit (m.offset % 65536))) :=
  moves_pooled (Pooling.grows_classRef name) fun _ _ =>
    ⟨rfl, rfl, rfl, rfl, rfl⟩

theorem moves_getstatic
    (owner name : String)
    (ty : Ty) :
    Moves (getstatic owner name ty) m (m.push (.ofTy ty)) := by
  unfold getstatic field
  rw [bind_assoc]
  exact moves_property fun d _ =>
    moves_pooled (Pooling.grows_member _ _ _ _) fun _ _ =>
      moves_write_push _ _ ⟨rfl, rfl, rfl, rfl, rfl⟩

end Pushing

------------------------------------------------------------
-- Taking
------------------------------------------------------------

theorem moves_dup
    (m : MethodDraft) :
    Moves dup m (m.exchange 1 [m.pop.1, m.pop.1]) := by
  have hSame : m.pop.2.SameWidths (m.write .dup []).pop.2 :=
    MethodDraft.SameWidths.pop ⟨rfl, rfl, rfl, rfl, rfl⟩
  have hTop : (m.write .dup []).pop.1 = m.pop.1 := by
    rw [MethodDraft.pop_top, MethodDraft.pop_top]
    rfl
  refine moves_of_yields (u := ()) rfl ?_
  rw [← hTop]
  exact (hSame.push _).push _

theorem moves_swap
    (m : MethodDraft) :
    Moves swap m (m.exchange 2 [m.pop.2.pop.1, m.pop.1]) := by
  have hWritten : m.SameWidths (m.write .swap []) :=
    ⟨rfl, rfl, rfl, rfl, rfl⟩
  have hTop : (m.write .swap []).pop.1 = m.pop.1 := by
    rw [MethodDraft.pop_top, MethodDraft.pop_top]
    rfl
  have hNext : (m.write .swap []).pop.2.pop.1 = m.pop.2.pop.1 := by
    rw [MethodDraft.pop_top, MethodDraft.pop_top,
      MethodDraft.stack_pop, MethodDraft.stack_pop]
    rfl
  refine moves_of_yields (u := ()) rfl ?_
  rw [← hTop, ← hNext]
  exact (hWritten.pop.pop.push _).push _

theorem moves_drop
    (m : MethodDraft) :
    Moves drop m (m.exchange 1 []) :=
  ⟨rfl, rfl, rfl, rfl, rfl⟩

theorem moves_putstatic
    (m : MethodDraft)
    (owner name : String)
    (ty : Ty) :
    Moves (putstatic owner name ty) m (m.exchange 1 []) := by
  unfold putstatic field
  rw [bind_assoc]
  exact moves_property fun d _ =>
    moves_pooled (Pooling.grows_member _ _ _ _) fun _ _ =>
      moves_of_yields (u := ()) rfl
        (MethodDraft.SameWidths.pop ⟨rfl, rfl, rfl, rfl, rfl⟩)

theorem moves_checkcast
    {ty : Ty}
    {name : String}
    (m : MethodDraft)
    (hTy : VType.ofTy ty = .object name)
    (hOther : name ≠ "java/lang/Object") :
    Moves (checkcast ty) m (m.exchange 1 [.object name]) := by
  unfold checkcast
  rw [hTy]
  dsimp only
  rw [if_neg hOther]
  refine moves_pooled (Pooling.grows_classRef name) fun index p => ?_
  have hSame : m.pop.2.SameWidths
      ({ m with pool := p }.write .checkcast (be16 index)).pop.2 :=
    MethodDraft.SameWidths.pop ⟨rfl, rfl, rfl, rfl, rfl⟩
  exact moves_of_yields (u := ()) rfl (hSame.push _)

theorem moves_store
    {l : Local}
    {x : LocalVar}
    (hLocal : m.locals[l.index]? = some x) :
    Moves (store l) m (m.exchange 1 []) :=
  moves_of_yields (outcomeOf_store hLocal) ⟨rfl, rfl, rfl, rfl, rfl⟩

theorem moves_athrow
    (m : MethodDraft) :
    Moves athrow m m.terminate :=
  moves_of_yields (u := ()) rfl
    ⟨rfl, rfl, (m.write .athrow []).maxStack_pop, rfl,
      (m.write .athrow []).overflow_pop⟩

theorem moves_returnValue
    (m : MethodDraft)
    (ty : Ty) :
    Moves (returnValue ty) m m.terminate := by
  unfold returnValue
  split
  · exact ⟨rfl, rfl, rfl, rfl, rfl⟩
  · exact ⟨rfl, rfl, m.maxStack_pop, rfl, m.overflow_pop⟩

------------------------------------------------------------
-- Calling
------------------------------------------------------------

section Calling

variable {m n : MethodDraft}

/- How many values stand for the receiver of a call. -/
def CallKind.receivers
    (kind : CallKind) : Nat :=
  if kind = .static then 0 else 1

/- What a call leaves on the stack. -/
def resultValues
    (result : Ty) : List VType :=
  if result.isVoid then [] else [.ofTy result]

/- The receiver is taken, also if it becomes an object. -/
theorem exists_popReceiver
    (kind : CallKind)
    (owner name : String)
    (hSame : n.SameWidths m)
    (hReceiver : kind = .special → name = "<init>" →
      m.pop.1.slots = 1) :
    ∃ m', Yields (popReceiver kind owner name) m () m' ∧
      (n.popMany kind.receivers).SameWidths m' := by
  unfold popReceiver CallKind.receivers
  by_cases hStatic : kind = .static
  · rw [if_pos hStatic, if_pos hStatic]
    exact ⟨m, yields_pure.mpr ⟨rfl, rfl⟩, hSame⟩
  · rw [if_neg hStatic, if_neg hStatic]
    by_cases hInit : kind = .special ∧ name = "<init>"
    · refine ⟨_, yields_bind.mpr ⟨m.pop.1, m.pop.2,
          yields_pop.mpr rfl, ?_⟩,
        hSame.pop.replace (if m.pop.1 = .uninitThis
          then m.pop.2.className else owner)
          (hReceiver hInit.1 hInit.2)⟩
      rw [if_pos hInit, yields_modify]
    · refine ⟨m.pop.2, yields_bind.mpr ⟨m.pop.1, m.pop.2,
          yields_pop.mpr rfl, ?_⟩, hSame.pop⟩
      rw [if_neg hInit]
      exact yields_pure.mpr ⟨rfl, rfl⟩

theorem moves_invoke
    {kind : CallKind}
    {descriptor : String}
    {params : List Ty}
    {result : Ty}
    (owner name : String)
    (hParse : parseMethodDescriptor descriptor =
      .ok (params, result))
    (hCounted : countedSlots kind params ≤ 65535)
    (hReceiver : kind = .special → name = "<init>" →
      (m.popMany params.length).pop.1.slots = 1) :
    Moves (invoke kind owner name descriptor) m
      (m.exchange (params.length + kind.receivers)
        (resultValues result)) := by
  unfold invoke
  rw [hParse]
  refine moves_pooled (Pooling.grows_member _ _ _ _) fun index p => ?_
  let m₁ : MethodDraft := ({ m with pool := p }.write kind.opcode
    (be16 index ++ countOperands kind params)).addUp
      (countedSlots kind params)
  have hSame : m.SameWidths m₁ :=
    ⟨rfl, rfl, rfl, rfl, MethodDraft.overflow_addUp _ hCounted⟩
  have hTop : (m₁.popMany params.length).pop.1 =
      (m.popMany params.length).pop.1 := by
    rw [MethodDraft.pop_top, MethodDraft.pop_top,
      MethodDraft.stack_popMany, MethodDraft.stack_popMany]
    rfl
  rw [← hTop] at hReceiver
  rcases exists_popReceiver kind owner name
    (hSame.popMany params.length) hReceiver with
    ⟨m₂, hRun, hPopped⟩
  rw [← MethodDraft.popMany_add] at hPopped
  refine moves_of_yields (?_ : Yields _ _ ()
    (if result.isVoid then m₂ else m₂.push (.ofTy result))) ?_
  · simp only [yields_bind, yields_writeCall, yields_modify, bne,
      beq_void]
    refine ⟨(), m₁, rfl, (), _, rfl, (), m₂, hRun, ?_⟩
    cases result.isVoid with
    | true => exact yields_pure.mpr ⟨rfl, rfl⟩
    | false => exact yields_push.mpr rfl
  · unfold resultValues
    cases result.isVoid with
    | true => exact hPopped
    | false => exact hPopped.push _

end Calling

------------------------------------------------------------
-- What Is Written
------------------------------------------------------------

section Written

variable {m m' : MethodDraft} {u : Unit}

theorem writes_aconstNull
    (hRun : Yields aconstNull m u m') :
    Writes m (.push .null) m' :=
  (emits_short (l := .null) hRun ⟨by simp, rfl⟩ rfl).writes

theorem writes_ldcClass
    {name : String}
    (hSound : m.Sound)
    (hRun : Yields (ldcClass name) m u m') :
    Writes m (.push (.classOf name)) m' := by
  refine (emits_pooled_ldc (l := .classOf name)
    (Pooling.grows_classRef name) rfl ?_ hRun).writes
  intro index p hPool
  have hClass := Pooling.classRef_classAt? hSound.pool.indexed hPool
  unfold ConstantPool.classAt? at hClass
  unfold ConstantPool.literalAt?
  cases hGet : p.get? index with
  | none => simp [hGet] at hClass
  | some c =>
      rw [hGet] at hClass
      cases c with
      | classRef i => exact congrArg (Option.map Literal.classOf) hClass
      | _ => cases hClass

/- What drops a value of so many slots. -/
def dropAction
    (slots : Nat) : Action :=
  if slots = 2 then .pop2 else .pop

theorem writes_drop
    (hRun : Yields drop m u m') :
    Writes m (dropAction m.pop.1.slots) m' := by
  simp only [drop, yields_bind, yields_pop, yields_write,
    Prod.ext_iff] at hRun
  rcases hRun with ⟨_, _, ⟨rfl, rfl⟩, rfl⟩
  unfold dropAction
  by_cases hWide : m.pop.1.slots = 2
  · rw [if_pos hWide, if_pos hWide]
    exact Writes.act (p := m.pool)
      (i := { offset := m.offset, opcode := .pop2 }) (.refl _) rfl
      ⟨by simp, rfl⟩ rfl rfl (sameCode_write_pop m .pop2)
  · rw [if_neg hWide, if_neg hWide]
    exact Writes.act (p := m.pool)
      (i := { offset := m.offset, opcode := .pop }) (.refl _) rfl
      ⟨by simp, rfl⟩ rfl rfl (sameCode_write_pop m .pop)

theorem writes_swap
    (hRun : Yields swap m u m') :
    Writes m .swap m' := by
  simp only [swap, yields_bind, yields_write, yields_pop, yields_push,
    Prod.ext_iff] at hRun
  rcases hRun with ⟨_, _, rfl, _, _, ⟨rfl, rfl⟩, _, _, ⟨rfl, rfl⟩, _,
    _, rfl, rfl⟩
  exact Writes.act (p := m.pool)
    (i := { offset := m.offset, opcode := .swap }) (.refl _) rfl
    ⟨by simp, rfl⟩ rfl rfl
    (((MethodDraft.SameCode.refl _).pop.pop.push _).push _)

theorem writes_getstatic
    {owner name d : String}
    {t : Ty}
    (hSound : m.Sound)
    (hText : t.descriptor = .ok d)
    (hRun : Yields (getstatic owner name t) m u m') :
    Writes m (.getstatic (.ofField owner name d)) m' := by
  unfold getstatic at hRun
  simp only [yields_bind, yields_write, yields_push] at hRun
  rcases hRun with ⟨index, _, hField, _, _, rfl, rfl⟩
  rcases yields_field hSound hText hField with
    ⟨p, hGrown, rfl, hMember⟩
  refine Writes.act (p := p)
    (i := { offset := m.offset, opcode := .getstatic
            operands := be16 index }) hGrown rfl ⟨by simp, rfl⟩ ?_ rfl
    ((MethodDraft.SameCode.refl _).push _)
  have hNamed := member?_of_index .getstatic m.offset (· == .field) []
    hMember rfl rfl (by simp)
  rw [List.append_nil] at hNamed
  exact congrArg (Option.map Action.getstatic) hNamed

end Written

end Stratagem

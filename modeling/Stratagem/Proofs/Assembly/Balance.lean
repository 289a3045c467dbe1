import Stratagem.Proofs.Assembly.FrameTable
import Stratagem.Proofs.Assembly.Widths

/-
  What steps leave as it was.

  A step that stores nothing and names no label leaves the
  locals and the labels of a draft alone.  It pushes no more
  values than it writes bytes, every type that it pushes can be
  written, and slots change at most because a constructor was
  called.

  Key definitions include:
    * `MethodDraft.Since`
    * `Emitter.Balanced`
    * `Step.isPassive`
    * `Step.Changes`
    * `Step.Turns`

  Main declarations:
    * `Step.exists_changes`
    * `Step.turns_apply`
-/

namespace Stratagem

open Jvm Emitter

------------------------------------------------------------
-- Types That Can Be Written
------------------------------------------------------------

namespace Jvm.VType

mutual

/- A type of values has no offset. -/
theorem writable_ofTy :
    ∀ t : Ty, (ofTy t).Writable
  | .primitive p => by cases p <;> nofun
  | .array t => by
      unfold ofTy
      split <;> nofun
  | .object _ => nofun
  | .variable _ => nofun
  | .argument a => by
      rw [ofTy]
      exact writable_ofArg a

theorem writable_ofArg :
    ∀ a : ArgTy, (ofArg a).Writable
  | .invariant t => writable_ofTy t
  | .covariant t => writable_ofTy t
  | .contravariant t => writable_ofTy t
  | .wildcard => nofun

end

theorem writable_top :
    VType.top.Writable := by
  intro x hSame
  cases hSame

/- What becomes of types when a constructor made an object. -/
def becomes
    (old : VType)
    (name : String)
    (v : VType) : VType :=
  if v = old then .object name else v

/- A type that changes becomes an object. -/
def Initializes
    (change : VType → VType) : Prop :=
  ∀ v, change v = v ∨ ∃ name, change v = .object name

theorem initializes_id :
    Initializes id :=
  fun _ => Or.inl rfl

theorem initializes_becomes
    (old : VType)
    (name : String) :
    Initializes (becomes old name) := by
  intro v
  unfold becomes
  split
  · exact Or.inr ⟨name, rfl⟩
  · exact Or.inl rfl

theorem Initializes.writable
    {change : VType → VType}
    {v : VType}
    (hInit : Initializes change)
    (hWritable : v.Writable) :
    (change v).Writable := by
  rcases hInit v with hSame | ⟨name, hObject⟩
  · rw [hSame]
    exact hWritable
  · rw [hObject]
    nofun

end Jvm.VType

------------------------------------------------------------
-- Drafts Made of Others
------------------------------------------------------------

/- The types of a snapshot can be written. -/
structure Snapshot.Writable
    (s : Snapshot) : Prop where
  stack : ∀ v ∈ s.stack, v.Writable
  slots : ∀ v ∈ s.slots, v.Writable

namespace MethodDraft

/-
  A draft was made of another that had the same locals and
  labels.  Of the bytes written since, so many are to spare:
  as many values may be pushed, and the stack is still not
  higher than before by more than there are new bytes.
-/
structure Since
    (m : MethodDraft)
    (change : VType → VType)
    (spare : Nat)
    (m' : MethodDraft) : Prop where
  header : m'.header = m.header
  locals : m'.locals = m.locals
  labels : m'.labels = m.labels
  slots : m'.slots = m.slots.map change
  later : m.offset ≤ m'.offset
  fault : m'.fault = none → m.fault = none
  low : m'.fault = none →
    m'.stack.length + m.offset + spare ≤ m.stack.length + m'.offset
  writable : m.snapshot.Writable → m'.snapshot.Writable

namespace Since

variable {m m₁ m' : MethodDraft} {f g : VType → VType}
variable {j k : Nat}

theorem refl
    (m : MethodDraft) :
    m.Since id 0 m :=
  ⟨rfl, rfl, rfl, (Array.map_id _).symm, Nat.le_refl _, id,
    fun _ => Nat.le_refl _, id⟩

theorem less
    (hSince : m.Since f k m')
    (hLess : j ≤ k) :
    m.Since f j m' :=
  { hSince with
    low := fun hFault => by
      have hLow := hSince.low hFault
      omega }

theorem trans
    (hFirst : m.Since f j m₁)
    (hNext : m₁.Since g k m') :
    m.Since (g ∘ f) (j + k) m' := by
  refine ⟨hNext.header.trans hFirst.header,
    hNext.locals.trans hFirst.locals,
    hNext.labels.trans hFirst.labels, ?_,
    Nat.le_trans hFirst.later hNext.later,
    hFirst.fault ∘ hNext.fault, ?_,
    hNext.writable ∘ hFirst.writable⟩
  · rw [hNext.slots, hFirst.slots, Array.map_map]
  · intro hFault
    have hNear := hNext.low hFault
    have hFar := hFirst.low (hNext.fault hFault)
    omega

theorem pooled
    (hSince : m.Since f k m')
    (p : ConstantPool) :
    m.Since f k { m' with pool := p } :=
  ⟨hSince.header, hSince.locals, hSince.labels, hSince.slots,
    hSince.later, hSince.fault, hSince.low, hSince.writable⟩

/- Every instruction takes a byte. -/
theorem write
    (hSince : m.Since f k m')
    (i : Instruction) :
    m.Since f (k + 1) (m'.append (.instruction i)) := by
  refine ⟨hSince.header, hSince.locals, hSince.labels, hSince.slots,
    Nat.le_trans hSince.later (Nat.le_add_right _ _), hSince.fault,
    fun hFault => ?_, hSince.writable⟩
  have hLow := hSince.low hFault
  have hSize : 1 ≤ i.size := by
    unfold Instruction.size
    split <;> omega
  change m'.stack.length + m.offset + (k + 1) ≤
    m.stack.length + (m'.offset + i.size)
  omega

theorem addUp
    (hSince : m.Since f k m')
    (sum : Nat) :
    m.Since f k (m'.addUp sum) :=
  ⟨hSince.header, hSince.locals, hSince.labels, hSince.slots,
    hSince.later, hSince.fault, hSince.low, hSince.writable⟩

theorem push
    {v : VType}
    (hSince : m.Since f (k + 1) m')
    (hWritable : m.snapshot.Writable → v.Writable) :
    m.Since f k (m'.push v) := by
  refine ⟨hSince.header, hSince.locals, hSince.labels, hSince.slots,
    hSince.later, hSince.fault, fun hFault => ?_, fun hBefore => ⟨?_,
      (hSince.writable hBefore).slots⟩⟩
  · have hLow := hSince.low hFault
    change m'.stack.length + 1 + m.offset + k ≤
      m.stack.length + m'.offset
    omega
  · exact List.forall_mem_cons.mpr
      ⟨hWritable hBefore, (hSince.writable hBefore).stack⟩

theorem pop
    (hSince : m.Since f k m') :
    m.Since f (k + 1) m'.pop.2 := by
  have hSame := (SameCode.refl m').pop
  have hSlots : m'.pop.2.slots = m'.slots := by
    unfold MethodDraft.pop
    split <;> rfl
  refine ⟨hSame.header.trans hSince.header,
    hSame.locals.trans hSince.locals,
    hSame.labels.trans hSince.labels, hSlots.trans hSince.slots,
    Nat.le_trans hSince.later (Nat.le_of_eq hSame.offset.symm),
    fun hFault => hSince.fault (exchanged_pop hFault).fault,
    fun hFault => ?_, fun hBefore => ⟨?_, ?_⟩⟩
  · have hPop := exchanged_pop hFault
    have hLow := hSince.low hPop.fault
    have hHeight := hPop.height
    rw [hSame.offset]
    omega
  · intro v hIn
    change v ∈ m'.pop.2.stack at hIn
    rw [stack_pop] at hIn
    exact (hSince.writable hBefore).stack v (List.mem_of_mem_tail hIn)
  · intro v hIn
    change v ∈ m'.pop.2.slots at hIn
    rw [hSlots] at hIn
    exact (hSince.writable hBefore).slots v hIn

/- What is taken could be written, too. -/
theorem writable_top
    (hSince : m.Since f k m')
    (hBefore : m.snapshot.Writable) :
    m'.pop.1.Writable := by
  rw [pop_top]
  cases hStack : m'.stack with
  | nil => nofun
  | cons v rest =>
      refine (hSince.writable hBefore).stack v ?_
      change v ∈ m'.stack
      rw [hStack]
      exact List.mem_cons_self

theorem popMany
    (hSince : m.Since f k m')
    (n : Nat) :
    m.Since f k (m'.popMany n) := by
  induction n generalizing m' with
  | zero => exact hSince
  | succ n ih => exact ih (hSince.pop.less (Nat.le_succ k))

theorem terminate
    (hSince : m.Since f k m') :
    m.Since f k m'.terminate := by
  refine ⟨hSince.header, hSince.locals, hSince.labels, hSince.slots,
    hSince.later, hSince.fault, fun hFault => ?_, fun hBefore =>
      ⟨List.forall_mem_nil _, (hSince.writable hBefore).slots⟩⟩
  have hLow := hSince.low hFault
  change 0 + m.offset + k ≤ m.stack.length + m'.offset
  omega

/- A constructor changes the slots that hold its object. -/
theorem replace
    (hSince : m.Since f k m')
    (old : VType)
    (name : String) :
    m.Since (VType.becomes old name ∘ f) k
      (m'.replace old (.object name)) := by
  have hInit := VType.initializes_becomes old name
  refine ⟨hSince.header, hSince.locals, hSince.labels, ?_,
    hSince.later, hSince.fault, fun hFault => ?_,
    fun hBefore => ⟨?_, ?_⟩⟩
  · rw [← Array.map_map, ← hSince.slots]
    rfl
  · have hLow := hSince.low hFault
    simpa [MethodDraft.replace] using hLow
  · intro v hIn
    rcases List.mem_map.mp hIn with ⟨w, hOld, rfl⟩
    exact hInit.writable ((hSince.writable hBefore).stack w hOld)
  · intro v hIn
    rcases Array.mem_map.mp hIn with ⟨w, hOld, rfl⟩
    exact hInit.writable ((hSince.writable hBefore).slots w hOld)

end Since

end MethodDraft

------------------------------------------------------------
-- Balanced Steps
------------------------------------------------------------

namespace Emitter

/-
  A step that changes no slot and pushes no more values than it
  writes bytes, also when it fails.
-/
abbrev Balanced
    {α : Type}
    (x : Emitter α) : Prop :=
  Keeps (fun m m' => m.Since id 0 m') x

section Balance

variable {α β : Type} {m : MethodDraft} {v : VType}

theorem balanced_pure
    (a : α) :
    Balanced (pure a) :=
  Keeps.pure .refl a

theorem balanced_throw
    (e : ClassFileError) :
    Balanced (throw e : Emitter α) :=
  Keeps.throw .refl e

theorem balanced_get :
    Balanced (get : Emitter MethodDraft) :=
  Keeps.get .refl

theorem Balanced.bind
    {x : Emitter α}
    {f : α → Emitter β}
    (hFirst : Balanced x)
    (hNext : ∀ a, Balanced (f a)) :
    Balanced (x >>= f) :=
  Keeps.bind .trans hFirst hNext

theorem Balanced.discard
    {x : Emitter α}
    (hStep : Balanced x) :
    Balanced (discard x) :=
  hStep.bind fun _ => balanced_pure ()

theorem balanced_pooled
    (x : Pooling α) :
    Balanced (pooled x) :=
  fun m => (MethodDraft.Since.refl m).pooled _

theorem balanced_property
    (r : Except TypeError α) :
    Balanced (property r) := by
  cases r with
  | ok a => exact balanced_pure a
  | error e => exact balanced_throw _

theorem balanced_write
    (opcode : Opcode)
    (operands : List UInt8) :
    Balanced (write opcode operands) :=
  fun m => ((MethodDraft.Since.refl m).write _).less (Nat.zero_le 1)

theorem balanced_pop :
    Balanced pop :=
  fun m => (MethodDraft.Since.refl m).pop.less (Nat.zero_le 1)

theorem balanced_terminate :
    Balanced (modify MethodDraft.terminate) :=
  fun m => (MethodDraft.Since.refl m).terminate

/- One value may be pushed behind an instruction. -/
theorem balanced_write_push
    (opcode : Opcode)
    (operands : List UInt8)
    (hWritable : v.Writable) :
    Balanced (do write opcode operands; push v) :=
  fun m => ((MethodDraft.Since.refl m).write _).push fun _ => hWritable

theorem balanced_pooled_ldc
    (x : Pooling UInt16)
    (hWritable : v.Writable) :
    Balanced (do
      let index ← pooled x
      ldc index
      push v) := by
  refine (balanced_pooled x).bind fun index => ?_
  unfold ldc
  split <;> exact balanced_write_push _ _ hWritable

theorem balanced_pushWide
    (c : Constant)
    (hWritable : v.Writable) :
    Balanced (pushWide c v) :=
  (balanced_pooled _).bind fun _ => balanced_write_push _ _ hWritable

theorem balanced_iconst
    (n : Int32) :
    Balanced (iconst n) := by
  unfold iconst
  dsimp only
  split
  · exact balanced_write_push _ _ nofun
  · split
    · exact balanced_write_push _ _ nofun
    · split
      · exact balanced_write_push _ _ nofun
      · exact balanced_pooled_ldc _ nofun

/- A constant in its short form, or else as given. -/
theorem balanced_shortOr
    {n : Nat}
    [DecidableEq α]
    {long : Emitter Unit}
    (short : Fin n → Opcode)
    (value : Fin n → α)
    (x : α)
    (hWritable : v.Writable)
    (hLong : Balanced long) :
    Balanced (shortOr short value x v long) :=
  shortOr_cases (fun _ _ => balanced_write_push _ _ hWritable) hLong

theorem balanced_lconst
    (n : Int64) :
    Balanced (lconst n) :=
  balanced_shortOr _ _ _ nofun (balanced_pushWide _ nofun)

theorem balanced_fconst
    (x : Binary32) :
    Balanced (fconst x) :=
  balanced_shortOr _ _ _ nofun (balanced_pooled_ldc _ nofun)

theorem balanced_dconst
    (x : Binary64) :
    Balanced (dconst x) :=
  balanced_shortOr _ _ _ nofun (balanced_pushWide _ nofun)

/- What is known of a local can be written, like its type. -/
theorem writable_heldIn
    (x : LocalVar)
    (hBefore : m.snapshot.Writable) :
    (heldIn x m).Writable := by
  unfold heldIn
  split
  case h_1 => exact VType.writable_ofTy x.ty
  case h_2 =>
      rw [Array.getD_eq_getD_getElem?]
      cases hSlot : m.slots[x.slot]? with
      | none => nofun
      | some w => exact hBefore.slots w (Array.mem_of_getElem? hSlot)

theorem balanced_load
    (l : Local) :
    Balanced (load l) := by
  intro m
  have hRun := outcomeOf_load m l
  cases hLocal : m.locals[l.index]? with
  | none =>
      rw [hLocal] at hRun
      rw [hRun]
      exact .refl m
  | some x =>
      rw [hLocal] at hRun
      rw [hRun]
      exact ((MethodDraft.Since.refl m).write _).push
        (writable_heldIn x)

theorem balanced_loadThis :
    Balanced loadThis := by
  refine balanced_get.bind fun m => ?_
  split
  · exact balanced_load _
  · exact balanced_pure ()

theorem balanced_drop :
    Balanced drop :=
  balanced_pop.bind fun _ => balanced_write _ _

/- A value that was taken is pushed again, and once more. -/
theorem balanced_dup :
    Balanced dup := by
  intro m
  have hWritten := (MethodDraft.Since.refl m).write
    { offset := m.offset, opcode := .dup }
  exact (hWritten.pop.push hWritten.writable_top).push
    hWritten.writable_top

theorem balanced_swap :
    Balanced swap := by
  intro m
  have hWritten := (MethodDraft.Since.refl m).write
    { offset := m.offset, opcode := .swap }
  have hBoth := (hWritten.pop.pop.push hWritten.writable_top).push
    hWritten.pop.writable_top
  exact hBoth.less (Nat.zero_le 1)

/- The offset of a new object is kept in two bytes. -/
theorem balanced_new
    (name : String) :
    Balanced (new name) := by
  refine (balanced_pooled _).bind fun index => ?_
  intro m
  refine ((MethodDraft.Since.refl m).write _).push fun _ x hx => ?_
  cases hx
  exact Nat.mod_lt _ (by decide)

theorem balanced_checkcast
    (ty : Ty) :
    Balanced (checkcast ty) := by
  unfold checkcast
  split
  · split
    · exact balanced_pure ()
    · refine (balanced_pooled _).bind fun _ m => ?_
      refine MethodDraft.Since.less (k := 1) ?_ (Nat.zero_le 1)
      exact ((MethodDraft.Since.refl m).write _).pop.push
        fun _ => nofun
  · exact balanced_throw _

theorem balanced_athrow :
    Balanced athrow :=
  (balanced_write _ _).bind fun _ =>
    balanced_pop.discard.bind fun _ => balanced_terminate

theorem balanced_field
    (owner name : String)
    (ty : Ty) :
    Balanced (field owner name ty) :=
  (balanced_property _).bind fun _ => balanced_pooled _

theorem balanced_getstatic
    (owner name : String)
    (ty : Ty) :
    Balanced (getstatic owner name ty) :=
  (balanced_field owner name ty).bind fun _ =>
    balanced_write_push _ _ (VType.writable_ofTy ty)

theorem balanced_putstatic
    (owner name : String)
    (ty : Ty) :
    Balanced (putstatic owner name ty) :=
  (balanced_field owner name ty).bind fun _ =>
    (balanced_write _ _).bind fun _ => balanced_pop.discard

theorem balanced_returnValue
    (ty : Ty) :
    Balanced (returnValue ty) := by
  unfold returnValue
  split
  · exact (balanced_write _ _).bind fun _ => balanced_terminate
  · exact balanced_pop.discard.bind fun _ =>
      (balanced_write _ _).bind fun _ => balanced_terminate

/- What taking the receiver of a call leaves. -/
theorem outcomeOf_popReceiver
    (kind : CallKind)
    (owner name : String)
    (m : MethodDraft) :
    outcomeOf (popReceiver kind owner name) m =
      (.ok (),
        if kind = .static then m
        else if kind = .special ∧ name = "<init>" then
          m.pop.2.replace m.pop.1
            (.object (if m.pop.1 = .uninitThis then m.pop.2.className
              else owner))
        else m.pop.2) := by
  unfold popReceiver
  by_cases hStatic : kind = .static
  · rw [if_pos hStatic, if_pos hStatic]
    rfl
  · rw [if_neg hStatic, if_neg hStatic, outcomeOf_bind]
    change outcomeOf _ m.pop.2 = _
    by_cases hInit : kind = .special ∧ name = "<init>"
    · rw [if_pos hInit, if_pos hInit]
      rfl
    · rw [if_neg hInit, if_neg hInit]
      rfl

/- Only a constructor changes slots, if it finds an object. -/
theorem since_popReceiver
    {m m' : MethodDraft}
    {k : Nat}
    (kind : CallKind)
    (owner name : String)
    (hSince : m.Since id k m') :
    ∃ change,
      m.Since change k (outcomeOf (popReceiver kind owner name) m').2 ∧
      (change = id ∨
        kind = .special ∧ name = "<init>" ∧
          ((outcomeOf (popReceiver kind owner name) m').2.fault =
            none → m'.stack ≠ []) ∧
          ∃ made, change = VType.becomes m'.pop.1 made) := by
  rw [outcomeOf_popReceiver]
  dsimp only
  split
  case isTrue => exact ⟨id, hSince, Or.inl rfl⟩
  case isFalse =>
      have hPopped := hSince.pop.less (Nat.le_succ k)
      split
      case isTrue hInit =>
          refine ⟨_, hPopped.replace _ _, Or.inr ⟨hInit.1, hInit.2,
            fun hFault => ?_, _, rfl⟩⟩
          exact List.ne_nil_of_length_pos
            (MethodDraft.exchanged_pop hFault).enough
      case isFalse => exact ⟨id, hPopped, Or.inl rfl⟩

/- The result of a call is pushed behind that. -/
theorem outcomeOf_called
    (kind : CallKind)
    (owner name : String)
    (result : Ty)
    (m : MethodDraft) :
    (outcomeOf (do
      popReceiver kind owner name
      if result != .primitive .void then
        push (.ofTy result)) m).2 =
      if result != .primitive .void then
        MethodDraft.push
          (outcomeOf (popReceiver kind owner name) m).2 (.ofTy result)
      else (outcomeOf (popReceiver kind owner name) m).2 := by
  rw [outcomeOf_bind, outcomeOf_popReceiver]
  dsimp only
  split <;> rfl

/- Which changes no slot. -/
theorem since_called
    {m m' : MethodDraft}
    {change : VType → VType}
    (hTaken : m.Since change 1 m')
    (result : Ty) :
    m.Since change 0
        (if result != .primitive .void then m'.push (.ofTy result)
          else m') ∧
      ((if result != .primitive .void then m'.push (.ofTy result)
          else m').fault = none → m'.fault = none) := by
  split
  · exact ⟨hTaken.push fun _ => VType.writable_ofTy result, id⟩
  · exact ⟨hTaken.less (Nat.zero_le 1), id⟩

/- What is on the stack below so many values. -/
theorem top_popMany
    (m : MethodDraft)
    (n : Nat) :
    (m.popMany n).pop.1 = m.stack.getD n .top := by
  rw [MethodDraft.pop_top, MethodDraft.stack_popMany,
    List.headD_eq_head?_getD, List.head?_drop,
    List.getD_eq_getElem?_getD]

/-
  A call changes slots if it is that of a constructor, and then
  those that hold what the constructor was called on.
-/
theorem since_invoke
    (kind : CallKind)
    (owner name descriptor : String)
    (m : MethodDraft) :
    ∃ change,
      m.Since change 0
        (outcomeOf (invoke kind owner name descriptor) m).2 ∧
      (change = id ∨
        kind = .special ∧ name = "<init>" ∧
          ∃ params result made,
            parseMethodDescriptor descriptor = .ok (params, result) ∧
            ((outcomeOf (invoke kind owner name descriptor)
                m).2.fault = none →
              params.length < m.stack.length) ∧
            change = VType.becomes
              (m.stack.getD params.length .top) made) := by
  unfold invoke
  rcases hParse : parseMethodDescriptor descriptor with
    e | ⟨params, result⟩
  · exact ⟨id, .refl m, Or.inl rfl⟩
  · dsimp only
    rw [outcomeOf_bind, outcomeOf_pooled]
    rcases outcomeOf (Pooling.member (if kind = .interface then
      .interfaceMethod else .method) owner name descriptor) m.pool with
      ⟨indexed, p⟩
    cases indexed with
    | error e => exact ⟨id, (MethodDraft.Since.refl m).pooled p,
        Or.inl rfl⟩
    | ok index =>
        dsimp only
        let m₁ : MethodDraft := ({ m with pool := p }.write kind.opcode
          (be16 index ++ countOperands kind params)).addUp
            (countedSlots kind params)
        have hWritten : m.Since id 1 m₁ :=
          (((MethodDraft.Since.refl m).pooled p).write _).addUp _
        rcases since_popReceiver kind owner name
          (hWritten.popMany params.length) with
          ⟨change, hTaken, hChange⟩
        rw [top_popMany, MethodDraft.stack_popMany] at hChange
        generalize hPopped : (outcomeOf (popReceiver kind owner name)
          (m₁.popMany params.length)).2 = m₂ at hTaken hChange
        have hRun := outcomeOf_called kind owner name result
          (m₁.popMany params.length)
        have hCalled := since_called hTaken result
        rw [hPopped] at hRun
        rw [← hRun] at hCalled
        rcases hCalled with ⟨hSince, hFault⟩
        refine ⟨change, hSince, hChange.imp_right ?_⟩
        rintro ⟨hSpecial, hInit, hThere, made, hMade⟩
        refine ⟨hSpecial, hInit, params, result, made, rfl,
          fun hNone => ?_, hMade⟩
        have hStack := hThere (hFault hNone)
        exact Nat.lt_of_not_le fun hFew =>
          hStack (List.drop_eq_nil_iff.mpr hFew)

/- Other calls change no slot. -/
theorem balanced_invoke
    {kind : CallKind}
    (owner name descriptor : String)
    (hKind : kind ≠ .special) :
    Balanced (invoke kind owner name descriptor) := by
  intro m
  rcases since_invoke kind owner name descriptor m with
    ⟨change, hSince, rfl | ⟨hSpecial, -⟩⟩
  · exact hSince
  · exact absurd hSpecial hKind

theorem balanced_box
    (ty : Ty) :
    Balanced (box ty) := by
  unfold box
  split
  · exact balanced_pure ()
  · exact (balanced_property _).bind fun _ =>
      (balanced_property _).bind fun _ =>
        (balanced_property _).bind fun _ =>
          balanced_invoke _ _ _ nofun

theorem balanced_unbox
    (ty : Ty) :
    Balanced (unbox ty) := by
  unfold unbox
  split
  · exact (balanced_checkcast _).bind fun _ =>
      (balanced_property _).bind fun _ =>
        (balanced_property _).bind fun _ =>
          balanced_invoke _ _ _ nofun
  · exact balanced_checkcast _

end Balance

end Emitter

------------------------------------------------------------
-- Passive Steps
------------------------------------------------------------

namespace Step

/- Whether a step adds no local or label, and changes none. -/
def isPassive : Step → Bool
  | .store _ => false
  | .newLocal _ _ => false
  | .newLabel => false
  | .bind _ => false
  | .goto _ => false
  | .ifnull _ => false
  | .ifnonnull _ => false
  | _ => true

/-
  A step changes the types in slots: some become objects.  What
  is unusable stays so, unless a constructor is called on it.
-/
structure Changes
    (s : Step)
    (m : MethodDraft)
    (change : VType → VType) : Prop where
  since : m.Since change 0 (s.apply m)
  made : VType.Initializes change
  tops : (s.apply m).fault = none → s.constructed? m ≠ some .top →
    change .top = .top

variable {m : MethodDraft} {s : Step}

theorem changes_of_balanced
    (hBalanced : Balanced s.run) :
    s.Changes m id :=
  ⟨hBalanced m, VType.initializes_id, fun _ _ => rfl⟩

theorem exists_changes_invoke
    (kind : CallKind)
    (owner name descriptor : String)
    (m : MethodDraft) :
    ∃ change,
      (Step.invoke kind owner name descriptor).Changes m change := by
  rcases since_invoke kind owner name descriptor m with
    ⟨change, hSince, rfl | ⟨rfl, rfl, params, result, made, hParse,
      hThere, rfl⟩⟩
  · exact ⟨id, hSince, VType.initializes_id, fun _ _ => rfl⟩
  · refine ⟨_, hSince, VType.initializes_becomes _ _, ?_⟩
    intro hFault hKnown
    have hStack := List.getElem?_eq_getElem (hThere hFault)
    simp only [constructed?, hParse, if_pos, hStack] at hKnown
    rw [List.getD_eq_getElem?_getD, hStack]
    exact if_neg fun hTop => hKnown (congrArg some hTop.symm)

/- Whatever a passive step does, it changes slots at most so. -/
theorem exists_changes
    (hPassive : s.isPassive = true)
    (m : MethodDraft) :
    ∃ change, s.Changes m change := by
  cases s with
  | aconstNull =>
      exact ⟨id, changes_of_balanced
        (balanced_write_push _ _ nofun)⟩
  | iconst n => exact ⟨id, changes_of_balanced (balanced_iconst n)⟩
  | lconst n => exact ⟨id, changes_of_balanced (balanced_lconst n)⟩
  | fconst x => exact ⟨id, changes_of_balanced (balanced_fconst x)⟩
  | dconst x => exact ⟨id, changes_of_balanced (balanced_dconst x)⟩
  | ldcString text =>
      exact ⟨id, changes_of_balanced (balanced_pooled_ldc _ nofun)⟩
  | ldcClass name =>
      exact ⟨id, changes_of_balanced (balanced_pooled_ldc _ nofun)⟩
  | load l => exact ⟨id, changes_of_balanced (balanced_load l)⟩
  | loadThis => exact ⟨id, changes_of_balanced balanced_loadThis⟩
  | drop => exact ⟨id, changes_of_balanced balanced_drop⟩
  | dup => exact ⟨id, changes_of_balanced balanced_dup⟩
  | swap => exact ⟨id, changes_of_balanced balanced_swap⟩
  | new name => exact ⟨id, changes_of_balanced (balanced_new name)⟩
  | checkcast ty =>
      exact ⟨id, changes_of_balanced (balanced_checkcast ty)⟩
  | athrow => exact ⟨id, changes_of_balanced balanced_athrow⟩
  | getstatic owner name ty =>
      exact ⟨id, changes_of_balanced
        (balanced_getstatic owner name ty)⟩
  | putstatic owner name ty =>
      exact ⟨id, changes_of_balanced
        (balanced_putstatic owner name ty)⟩
  | invoke kind owner name descriptor =>
      exact exists_changes_invoke kind owner name descriptor m
  | box ty => exact ⟨id, changes_of_balanced (balanced_box ty)⟩
  | unbox ty => exact ⟨id, changes_of_balanced (balanced_unbox ty)⟩
  | returnValue ty =>
      exact ⟨id, changes_of_balanced (balanced_returnValue ty)⟩
  | store l => cases hPassive
  | newLocal name ty => cases hPassive
  | newLabel => cases hPassive
  | bind l => cases hPassive
  | goto l => cases hPassive
  | ifnull l => cases hPassive
  | ifnonnull l => cases hPassive

------------------------------------------------------------
-- All Steps
------------------------------------------------------------

/-
  What a step turns a draft into.  Where a value is taken and
  bytes are written first, nothing else is known of the draft
  between.
-/
inductive Turns
    (m : MethodDraft) : Step → MethodDraft → Prop
  | passive
      {s : Step}
      {change : VType → VType}
      (hPassive : s.isPassive = true)
      (hChanges : s.Changes m change) :
      Turns m s (s.apply m)
  | stored
      {l : Local}
      {v : LocalVar}
      {n : MethodDraft}
      (hLocal : m.locals[l.index]? = some v)
      (hSince : m.Since id 1 n) :
      Turns m (.store l) (n.stored l v)
  | missing
      {l : Local}
      (hLocal : m.locals[l.index]? = none) :
      Turns m (.store l) m
  | added
      {name : String}
      {ty : Ty}
      (hRoom : m.hasRoom ty = true) :
      Turns m (.newLocal name ty) (m.alloc name ty none .top).2
  | full
      {name : String}
      {ty : Ty}
      (hFull : ¬ m.hasRoom ty = true) :
      Turns m (.newLocal name ty) m
  | labelled :
      Turns m .newLabel { m with labels := m.labels.push {} }
  | bound
      {l : Label} :
      Turns m (.bind l) (m.bind l)
  | jumped
      {s : Step}
      {opcode : Opcode}
      {l : Label}
      {n : MethodDraft}
      (hJump : s.jump? = some (opcode, l))
      (hSince : m.Since id 0 n) :
      Turns m s (n.jump opcode l)
  | left
      {s : Step}
      {opcode : Opcode}
      {l : Label}
      {n : MethodDraft}
      (hJump : s.jump? = some (opcode, l))
      (hSince : m.Since id 0 n) :
      Turns m s (n.jump opcode l).terminate

theorem turns_passive
    (hPassive : s.isPassive = true)
    (m : MethodDraft) :
    s.Turns m (s.apply m) := by
  rcases exists_changes hPassive m with ⟨change, hChanges⟩
  exact .passive hPassive hChanges

theorem turns_store
    (l : Local)
    (m : MethodDraft) :
    (Step.store l).Turns m ((Step.store l).apply m) := by
  change (Step.store l).Turns m (outcomeOf (Emitter.store l) m).2
  cases hLocal : m.locals[l.index]? with
  | none =>
      rw [outcomeOf_store_none hLocal]
      exact .missing hLocal
  | some v =>
      rw [outcomeOf_store hLocal]
      exact .stored hLocal
        (((MethodDraft.Since.refl m).pop.write _).less (Nat.le_succ 1))

theorem turns_newLocal
    (name : String)
    (ty : Ty)
    (m : MethodDraft) :
    (Step.newLocal name ty).Turns m
      ((Step.newLocal name ty).apply m) := by
  change (Step.newLocal name ty).Turns m
    (outcomeOf (discard (Emitter.newLocal name ty)) m).2
  rw [outcomeOf_newLocal]
  split
  case isTrue hRoom => exact .added hRoom
  case isFalse hFull => exact .full hFull

/- This is all that steps do. -/
theorem turns_apply
    (s : Step)
    (m : MethodDraft) :
    s.Turns m (s.apply m) := by
  have hTested : m.Since id 0 m.pop.2 :=
    (MethodDraft.Since.refl m).pop.less (Nat.zero_le 1)
  cases s with
  | store l => exact turns_store l m
  | newLocal name ty => exact turns_newLocal name ty m
  | newLabel => exact .labelled
  | bind l => exact .bound
  | goto l => exact .left rfl (.refl m)
  | ifnull l => exact .jumped rfl hTested
  | ifnonnull l => exact .jumped rfl hTested
  | _ => exact turns_passive rfl m

end Step

end Stratagem

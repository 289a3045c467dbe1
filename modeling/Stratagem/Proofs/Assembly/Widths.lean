import Mathlib.Data.List.Infix
import Stratagem.Proofs.Assembly.Jumps

/-
  What the fields of finished code can hold.

  The depth of the stack is counted in sixteen bits, and the
  slots that a call of an interface takes are written as eight.
  No method is finished whose code is too long.  The depth that
  is declared is high enough unless a sum leaves its sixteen
  bits, which happens exactly if the stack gets higher than
  they can tell.  The slots of a call are not checked, and are
  right exactly as long as eight bits can tell them.

  Key definitions include:
    * `Step.constructed?`
    * `Step.counted?`
    * `Step.Regular`
    * `MethodDraft.Gauged`
    * `Instruction.argumentSlots?`
    * `MethodDraft.Counted`

  Main declarations:
    * `MethodDraft.Gauged.apply`
    * `MethodDraft.Gauged.runAll`
    * `MethodDraft.Counted.apply`
    * `MethodDraft.Counted.runAll`
    * `ClassDraft.fields_hold`
-/

namespace Stratagem

open Jvm Emitter

------------------------------------------------------------
-- Regular Steps
------------------------------------------------------------

namespace Step

/- What a step has a constructor make an object. -/
def constructed?
    (m : MethodDraft) : Step → Option VType
  | .invoke .special _ name descriptor =>
      match parseMethodDescriptor descriptor with
      | .ok (params, _) =>
          if name = "<init>" then m.stack[params.length]?
          else none
      | .error _ => none
  | _ => none

/- What becomes an object is as wide as one. -/
def Constructs
    (m : MethodDraft)
    (s : Step) : Prop :=
  ∀ v ∈ s.constructed? m, v.slots = 1

instance
    (m : MethodDraft)
    (s : Step) :
    Decidable (s.Constructs m) :=
  inferInstanceAs (Decidable (∀ v ∈ s.constructed? m, v.slots = 1))

/- Slots that a call of an interface adds up. -/
def counted? : Step → Option Nat
  | .invoke .interface _ _ descriptor =>
      match parseMethodDescriptor descriptor with
      | .ok (params, _) =>
          some (countedSlots .interface params)
      | .error _ => none
  | _ => none

/-
  What becomes an object is as wide as one, and sixteen bits
  can tell what a call adds up.
-/
structure Regular
    (m : MethodDraft)
    (s : Step) : Prop where
  constructs : s.Constructs m
  counted : ∀ n ∈ s.counted?, n ≤ 65535

instance
    (m : MethodDraft)
    (s : Step) :
    Decidable (s.Regular m) :=
  decidable_of_iff
    (s.Constructs m ∧ ∀ n ∈ s.counted?, n ≤ 65535)
    ⟨fun hBoth => ⟨hBoth.1, hBoth.2⟩,
      fun hRegular => ⟨hRegular.constructs, hRegular.counted⟩⟩

end Step

------------------------------------------------------------
-- Depths
------------------------------------------------------------

/-
  A step leaves a draft that knows the depth of its stack, and
  no sum leaves its sixteen bits, if it does not get too high.
-/
def Levels
    (x : Emitter Unit)
    (m : MethodDraft) : Prop :=
  m.Level → (outcomeOf x m).2.height ≤ 65535 →
    (outcomeOf x m).2.Level ∧
      (outcomeOf x m).2.overflow = m.overflow

namespace MethodDraft

theorem overflow_popMany
    (m : MethodDraft)
    (n : Nat) :
    (m.popMany n).overflow = m.overflow := by
  induction n generalizing m with
  | zero => rfl
  | succ n ih =>
      rw [MethodDraft.popMany, ih, overflow_pop]

/- Unless the stack gets too high, all its sums are small. -/
theorem Level.overflow_exchange
    {m : MethodDraft}
    {n : Nat}
    {vs : List VType}
    (hLevel : m.Level)
    (hHigh : (m.exchange n vs).height ≤ 65535) :
    (m.exchange n vs).overflow = m.overflow := by
  induction vs with
  | nil => exact m.overflow_popMany n
  | cons v vs ih =>
      have hHeight : (m.exchange n (v :: vs)).height =
          v.slots + (m.exchange n vs).height := rfl
      have hDepth : (m.exchange n vs).depth.toNat =
          (m.exchange n vs).height :=
        (hLevel.exchange (by omega)).depth
      have hFits : (m.exchange n vs).depth.toNat + v.slots ≤ 65535 := by
        omega
      exact (overflow_addUp _ hFits).trans (ih (by omega))

end MethodDraft

section Levels

variable {m n : MethodDraft} {x : Emitter Unit}

theorem Moves.height_le
    {limit : Nat}
    (hMoves : Moves x m n)
    (hBefore : m.height ≤ limit)
    (hAfter : n.height ≤ limit) :
    (outcomeOf x m).2.height ≤ limit := by
  rcases hMoves.idle_or_same with ⟨p, -, hIdle⟩ | hSame
  · rw [hIdle]
    exact hBefore
  · rw [hSame.height]
    exact hAfter

theorem levels_of_moves
    (hMoves : Moves x m n)
    (hNext : m.Level → n.height ≤ 65535 →
      n.Level ∧ n.overflow = m.overflow) :
    Levels x m := by
  intro hLevel hHigh
  rcases hMoves.idle_or_same with ⟨p, -, hIdle⟩ | hSame
  · rw [hIdle]
    exact ⟨⟨hLevel.depth, hLevel.high⟩, rfl⟩
  · rw [hSame.height] at hHigh
    rcases hNext hLevel hHigh with ⟨hAfter, hKept⟩
    exact ⟨hSame.level hAfter, hSame.overflow.trans hKept⟩

theorem levels_exchange
    {count : Nat}
    {vs : List VType}
    (hMoves : Moves x m (m.exchange count vs)) :
    Levels x m :=
  levels_of_moves hMoves fun hLevel hHigh =>
    ⟨hLevel.exchange hHigh, hLevel.overflow_exchange hHigh⟩

theorem levels_push
    {v : VType}
    (hMoves : Moves x m (m.push v)) :
    Levels x m :=
  levels_exchange (show Moves x m (m.exchange 0 [v]) from hMoves)

theorem levels_terminate
    (hMoves : Moves x m m.terminate) :
    Levels x m :=
  levels_of_moves hMoves fun _ _ => ⟨m.level_terminate, rfl⟩

/- Nothing is done at all. -/
theorem levels_of_eq
    (hRun : (outcomeOf x m).2 = m) :
    Levels x m := by
  intro hLevel _
  rw [hRun]
  exact ⟨hLevel, rfl⟩

theorem levels_property
    {α : Type}
    {r : Except TypeError α}
    {f : α → Emitter Unit}
    (hNext : ∀ a, Levels (f a) m) :
    Levels (property r >>= f) m := by
  cases r with
  | ok a => exact hNext a
  | error e => exact levels_of_eq rfl

theorem levels_load
    (l : Local) :
    Levels (load l) m := by
  have hRun := outcomeOf_load m l
  cases hLocal : m.locals[l.index]? with
  | none =>
      rw [hLocal] at hRun
      exact levels_of_eq (congrArg Prod.snd hRun)
  | some v =>
      rw [hLocal] at hRun
      exact levels_push (moves_of_yields hRun ⟨rfl, rfl, rfl, rfl, rfl⟩)

theorem levels_loadThis :
    Levels loadThis m := by
  have hRun := outcomeOf_loadThis m
  cases hThis : m.this? with
  | none =>
      rw [hThis] at hRun
      exact levels_of_eq (congrArg Prod.snd hRun)
  | some l =>
      rw [hThis] at hRun
      unfold Levels
      rw [hRun]
      exact levels_load l

theorem levels_store
    (l : Local) :
    Levels (store l) m := by
  cases hLocal : m.locals[l.index]? with
  | none =>
      exact levels_of_eq
        (congrArg Prod.snd (outcomeOf_store_none hLocal))
  | some v => exact levels_exchange (moves_store hLocal)

theorem levels_newLocal
    (name : String)
    (ty : Ty) :
    Levels (discard (newLocal name ty)) m := by
  intro hLevel _
  rw [outcomeOf_newLocal]
  split
  · exact ⟨⟨hLevel.depth, hLevel.high⟩, rfl⟩
  · exact ⟨hLevel, rfl⟩

/- A cast changes the top of the stack, or nothing. -/
theorem moves_checkcast_cases
    (m : MethodDraft)
    (ty : Ty) :
    Moves (checkcast ty) m m ∨
      ∃ name, Moves (checkcast ty) m (m.exchange 1 [.object name]) := by
  cases hTy : VType.ofTy ty with
  | object name =>
      by_cases hObject : name = "java/lang/Object"
      · refine Or.inl (moves_of_yields (u := ()) ?_ (.refl m))
        unfold Yields checkcast
        rw [hTy]
        dsimp only
        rw [if_pos hObject]
        rfl
      · exact Or.inr ⟨name, moves_checkcast m hTy hObject⟩
  | _ =>
      unfold Moves checkcast
      rw [hTy]
      exact Or.inl ⟨m.pool, .refl _, rfl⟩

theorem levels_checkcast
    (ty : Ty) :
    Levels (checkcast ty) m := by
  rcases moves_checkcast_cases m ty with hMoves | ⟨name, hMoves⟩
  · exact levels_of_moves hMoves fun hLevel _ => ⟨hLevel, rfl⟩
  · exact levels_exchange hMoves

/- It does not make the stack higher than it may be. -/
theorem height_checkcast_le
    (ty : Ty)
    (hLow : m.height ≤ 65535) :
    (outcomeOf (checkcast ty) m).2.height ≤ 65535 := by
  have hCast : ∀ name,
      (m.exchange 1 [.object name]).height ≤ 65535 := by
    intro name
    rw [MethodDraft.height, MethodDraft.stack_exchange]
    cases hStack : m.stack with
    | nil =>
        change 1 ≤ 65535
        omega
    | cons v rest =>
        have hHeight := MethodDraft.height_of_stack hStack
        have hWidth := v.slots_pos
        change 1 + VType.totalSlots rest ≤ 65535
        omega
  rcases moves_checkcast_cases m ty with hMoves | ⟨name, hMoves⟩
  · exact hMoves.height_le hLow hLow
  · exact hMoves.height_le hLow (hCast name)

theorem levels_invoke
    {kind : CallKind}
    {owner name descriptor : String}
    (hRegular :
      (Step.invoke kind owner name descriptor).Regular m) :
    Levels (invoke kind owner name descriptor) m := by
  rcases hParse : parseMethodDescriptor descriptor with
    e | ⟨params, result⟩
  · refine levels_of_eq ?_
    unfold invoke
    rw [hParse]
    rfl
  · have hSmall : countedSlots kind params ≤ 65535 := by
      have hCounted := hRegular.counted
      cases kind with
      | interface =>
          simp only [Step.counted?, hParse] at hCounted
          exact hCounted _ rfl
      | _ => exact Nat.zero_le _
    refine levels_exchange (moves_invoke owner name hParse hSmall ?_)
    rintro rfl rfl
    rw [MethodDraft.pop_top, MethodDraft.stack_popMany,
      List.headD_eq_head?_getD, List.head?_drop]
    have hWidth := hRegular.constructs
    simp only [Step.Constructs, Step.constructed?, hParse,
      if_pos] at hWidth
    cases hReceiver : m.stack[params.length]? with
    | none => rfl
    | some v => exact hWidth v hReceiver

theorem levels_box
    (ty : Ty) :
    Levels (box ty) m := by
  unfold box
  split
  · exact levels_of_eq rfl
  · exact levels_property fun _ => levels_property fun _ =>
      levels_property fun _ => levels_invoke ⟨nofun, nofun⟩

theorem levels_unbox
    (ty : Ty) :
    Levels (unbox ty) m := by
  unfold unbox
  split
  case h_2 => exact levels_checkcast ty
  case h_1 wrapper method _ _ =>
      intro hLevel hHigh
      have hCast := levels_checkcast wrapper hLevel
        (height_checkcast_le wrapper hLevel.height_le)
      rw [outcomeOf_bind] at hHigh ⊢
      rcases hRun : outcomeOf (checkcast wrapper) m with ⟨result, m₁⟩
      rw [hRun] at hCast hHigh
      rcases hCast with ⟨hMiddle, hKept⟩
      cases result with
      | error e => exact ⟨hMiddle, hKept⟩
      | ok u =>
          have hCall : Levels (do
              let owner ← property wrapper.internalName
              let result ← property ty.descriptor
              invoke .virtual owner method s!"(){result}") m₁ :=
            levels_property fun _ => levels_property fun _ =>
              levels_invoke ⟨nofun, nofun⟩
          rcases hCall hMiddle hHigh with ⟨hAfter, hSame⟩
          exact ⟨hAfter, hSame.trans hKept⟩

/- Steps that name no label. -/
theorem Step.levels_run
    {s : Step}
    (hLabel : s.label? = none)
    (hRegular : s.Regular m) :
    Levels s.run m := by
  cases s with
  | aconstNull => exact levels_push (moves_write_push _ _ (.refl _))
  | iconst n => exact levels_push (moves_iconst n)
  | lconst n => exact levels_push (moves_lconst n)
  | fconst x => exact levels_push (moves_fconst x)
  | dconst x => exact levels_push (moves_dconst x)
  | ldcString text =>
      exact levels_push (moves_pooled_ldc (Pooling.grows_string text))
  | ldcClass name =>
      exact levels_push (moves_pooled_ldc (Pooling.grows_classRef name))
  | load l => exact levels_load l
  | store l => exact levels_store l
  | newLocal name ty => exact levels_newLocal name ty
  | loadThis => exact levels_loadThis
  | drop => exact levels_exchange (moves_drop m)
  | dup => exact levels_exchange (moves_dup m)
  | swap => exact levels_exchange (moves_swap m)
  | new name => exact levels_push (moves_new name)
  | checkcast ty => exact levels_checkcast ty
  | athrow => exact levels_terminate (moves_athrow m)
  | getstatic owner name ty =>
      exact levels_push (moves_getstatic owner name ty)
  | putstatic owner name ty =>
      exact levels_exchange (moves_putstatic m owner name ty)
  | invoke kind owner name descriptor => exact levels_invoke hRegular
  | box ty => exact levels_box ty
  | unbox ty => exact levels_unbox ty
  | newLabel =>
      exact fun hLevel _ => ⟨⟨hLevel.depth, hLevel.high⟩, rfl⟩
  | returnValue ty => exact levels_terminate (moves_returnValue m ty)
  | bind l => cases hLabel
  | goto l => cases hLabel
  | ifnull l => cases hLabel
  | ifnonnull l => cases hLabel

end Levels

namespace MethodDraft

/-
  A draft knows the depth of its stack exactly, and no sum has
  left its sixteen bits.
-/
structure Gauged
    (m : MethodDraft) : Prop where
  level : m.Level
  covered : m.Covered
  whole : m.overflow = false

/- A method begins so. -/
theorem Bare.gauged
    {m : MethodDraft}
    (hBare : m.Bare) :
    m.Gauged := by
  refine ⟨⟨?_, hBare.covered.high⟩, hBare.covered, hBare.whole⟩
  rw [hBare.depth, hBare.stack]
  rfl

/-
  What is resumed at a label was covered, so its depth is
  known again.
-/
theorem level_bind
    {m : MethodDraft}
    (hLevel : m.Level)
    (hCovered : m.Covered)
    (l : Label) :
    (m.bind l).Level := by
  unfold MethodDraft.bind
  dsimp only
  split
  · exact ⟨hLevel.depth, hLevel.high⟩
  · have hHeight : VType.totalSlots
        ((m.labels.getD l.index {}).entry.getD m.snapshot).stack ≤
          m.maxStack.toNat :=
      hCovered.entries.known hCovered.declared l.index
    exact ⟨toNat_slotsOf hHeight, toNat_slotsOf hHeight ▸ hHeight⟩

theorem overflow_bind
    (m : MethodDraft)
    (l : Label) :
    (m.bind l).overflow = m.overflow := by
  unfold MethodDraft.bind
  dsimp only
  split <;> rfl

namespace Gauged

variable {m : MethodDraft}

/- A step keeps it so, unless the stack gets too high. -/
theorem apply
    {s : Step}
    (hGauged : m.Gauged)
    (hRegular : s.Regular m)
    (hHigh : (s.apply m).height ≤ 65535) :
    (s.apply m).Gauged := by
  have hLevel := hGauged.level
  suffices hNext : (s.apply m).Level ∧
      (s.apply m).overflow = m.overflow by
    have hWhole := hNext.2.trans hGauged.whole
    exact ⟨hNext.1, (s.safe_run m).gauges.covered hWhole
      hGauged.covered, hWhole⟩
  rcases s.cases_label with hLabel | ⟨opcode, l, hJump⟩ | ⟨l, rfl⟩
  · exact Step.levels_run hLabel hRegular hLevel hHigh
  · cases s with
    | goto l => exact ⟨level_terminate _, rfl⟩
    | ifnull l =>
        exact ⟨⟨hLevel.pop.depth, hLevel.pop.high⟩, m.overflow_pop⟩
    | ifnonnull l =>
        exact ⟨⟨hLevel.pop.depth, hLevel.pop.high⟩, m.overflow_pop⟩
    | _ => cases hJump
  · exact ⟨level_bind hLevel hGauged.covered l, m.overflow_bind l⟩

/- And so do all, as long as it does not. -/
theorem runAll
    {steps : List Step}
    (hGauged : m.Gauged)
    (hRegular : Step.Always Step.Regular steps m)
    (hHigh : ∀ before, before <+: steps →
      (Step.runAll before m).height ≤ 65535) :
    (Step.runAll steps m).Gauged := by
  induction steps generalizing m with
  | nil => exact hGauged
  | cons s steps ih =>
      have hNext : (s.apply m).height ≤ 65535 :=
        hHigh [s] ⟨steps, rfl⟩
      refine ih (hGauged.apply hRegular.1 hNext) hRegular.2
        fun before hBefore => hHigh (s :: before) ?_
      exact List.cons_prefix_cons.mpr ⟨rfl, hBefore⟩

end Gauged

/-
  As long as no sum leaves its sixteen bits, no stack on the
  way was higher than what is declared in the end.
-/
theorem height_le_of_whole
    {m : MethodDraft}
    {steps : List Step}
    (hCovered : m.Covered)
    (hWhole : (Step.runAll steps m).overflow = false) :
    ∀ before, before <+: steps →
      (Step.runAll before m).height ≤
        (Step.runAll steps m).maxStack.toNat := by
  rintro before ⟨after, rfl⟩
  rw [Step.runAll_append] at hWhole ⊢
  have hKept := (Step.leads_runAll after _).gauges.kept hWhole
  have hMiddle :=
    (Step.leads_runAll before m).gauges.covered hKept hCovered
  rcases Step.adds_runAll after (Step.runAll before m) with
    ⟨ls, hAdds⟩
  exact Nat.le_trans hMiddle.declared hAdds.higher

end MethodDraft

------------------------------------------------------------
-- Counts
------------------------------------------------------------

/- The slots of the arguments of a method of an interface. -/
def Instruction.argumentSlots?
    (p : ConstantPool)
    (i : Instruction) : Option Nat :=
  (i.member? p (· == .interfaceMethod)).bind fun method =>
    method.callSlots?.map Prod.fst

/- The slots that a call of an interface is said to take. -/
def Instruction.count?
    (i : Instruction) : Option UInt8 :=
  i.operands[2]?

/-
  What a call of an interface is said to take is the receiver
  and the arguments, as far as one byte can tell.
-/
def Instruction.Counted
    (p : ConstantPool)
    (i : Instruction) : Prop :=
  ∃ n, i.argumentSlots? p = some n ∧
    i.count? = some (UInt8.ofNat (1 + n))

theorem Instruction.argumentSlots?_within
    {p q : ConstantPool}
    {i : Instruction}
    {n : Nat}
    (hWithin : p.Within q)
    (hSlots : i.argumentSlots? p = some n) :
    i.argumentSlots? q = some n := by
  rcases Option.bind_eq_some_iff.mp hSlots with
    ⟨method, hMember, hCall⟩
  exact Option.bind_eq_some_iff.mpr
    ⟨method, Instruction.member?_within hWithin hMember, hCall⟩

theorem Instruction.Counted.within
    {p q : ConstantPool}
    {i : Instruction}
    (hCounted : i.Counted p)
    (hWithin : p.Within q) :
    i.Counted q := by
  rcases hCounted with ⟨n, hSlots, hCount⟩
  exact ⟨n, argumentSlots?_within hWithin hSlots, hCount⟩

/- One byte tells it exactly for up to 254 slots. -/
theorem toNat_count_iff
    (n : Nat) :
    (UInt8.ofNat (1 + n)).toNat = 1 + n ↔ n ≤ 254 := by
  rw [UInt8.toNat_ofNat']
  omega

namespace MethodDraft

/- All calls of interfaces in a draft are counted. -/
def Counted
    (m : MethodDraft) : Prop :=
  ∀ i, Line.instruction i ∈ m.lines.toList →
    i.opcode = .invokeinterface → i.Counted m.pool

namespace Counted

variable {m m' : MethodDraft}

/- No call of an interface is added. -/
theorem of_lines
    (hCounted : m.Counted)
    (hWithin : m.pool.Within m'.pool)
    (hLines : ∀ i, Line.instruction i ∈ m'.lines.toList →
      i.opcode = .invokeinterface →
      Line.instruction i ∈ m.lines.toList) :
    m'.Counted :=
  fun i hIn hCall =>
    (hCounted i (hLines i hIn hCall) hCall).within hWithin

end Counted

/- What a call does to the stack writes nothing. -/
theorem keeps_settle
    (kind : CallKind)
    (owner name : String)
    (params : List Ty)
    (result : Ty) :
    Keeps SameCode (do
      modify (·.addUp (countedSlots kind params))
      modify (·.popMany params.length)
      popReceiver kind owner name
      if result != .primitive .void then
        Emitter.push (.ofTy result)) := by
  refine Keeps.bind .trans
    (Keeps.modify fun m => (SameCode.refl m).addUp _) fun _ =>
      Keeps.bind .trans
        (Keeps.modify fun m => (SameCode.refl m).popMany _) fun _ =>
          Keeps.bind .trans (keeps_popReceiver kind owner name)
            fun _ => ?_
  split
  · exact fun m => (SameCode.refl m).push _
  · exact Keeps.pure .refl ()

/-
  A call of an interface writes one instruction, which counts
  what the call takes, or nothing if it fails.
-/
theorem lines_invoke
    {m m' : MethodDraft}
    {owner name descriptor : String}
    (hIndexed : m.pool.Indexed)
    (hRun : (outcomeOf
      (Emitter.invoke .interface owner name descriptor) m).2 = m') :
    m'.lines = m.lines ∨
      ∃ i, m'.lines = m.lines.push (.instruction i) ∧
        i.Counted m'.pool := by
  unfold Emitter.invoke at hRun
  rcases hParse : parseMethodDescriptor descriptor with
    e | ⟨params, result⟩
  · rw [hParse] at hRun
    subst hRun
    exact Or.inl rfl
  · rw [hParse] at hRun
    dsimp only at hRun
    rw [outcomeOf_bind, if_pos rfl, outcomeOf_pooled] at hRun
    rcases hPool : outcomeOf (Pooling.member .interfaceMethod owner
      name descriptor) m.pool with ⟨found, p⟩
    rw [hPool] at hRun
    cases found with
    | error e =>
        subst hRun
        exact Or.inl rfl
    | ok index =>
        have hMember := Pooling.member_memberAt? hIndexed hPool
        let i : Instruction := {
          offset := m.offset, opcode := .invokeinterface
          operands := be16 index ++ countOperands .interface params }
        have hSettled : SameCode
            ({ m with pool := p }.append (.instruction i)) m' := by
          rw [← hRun]
          exact keeps_settle .interface owner name params result _
        refine Or.inr ⟨i, hSettled.lines, Ty.totalSlots params, ?_, rfl⟩
        rw [hSettled.pool]
        have hNamed := member?_of_index .invokeinterface m.offset
          (· == .interfaceMethod) (countOperands .interface params)
          hMember rfl rfl (by simp)
        refine Option.bind_eq_some_iff.mpr ⟨_, hNamed, ?_⟩
        rw [MemberRef.callSlots?, hParse]
        rfl

namespace Counted

variable {m : MethodDraft}

theorem invoke
    (hCounted : m.Counted)
    (hIndexed : m.pool.Indexed)
    (owner name descriptor : String) :
    (Step.apply m
      (.invoke .interface owner name descriptor)).Counted := by
  have hWithin : m.pool.Within (Step.apply m
      (.invoke .interface owner name descriptor)).pool :=
    (Step.safe_run _ m).grown.within
  rcases lines_invoke hIndexed (rfl : _ = Step.apply m
    (.invoke .interface owner name descriptor)) with
    hSame | ⟨i, hNew, hOne⟩
  · refine hCounted.of_lines hWithin fun j hIn _ => ?_
    rw [hSame] at hIn
    exact hIn
  · intro j hIn hCall
    rw [hNew, Array.toList_push] at hIn
    rcases List.mem_append.mp hIn with hOld | hLast
    · exact (hCounted j hOld hCall).within hWithin
    · cases List.mem_singleton.mp hLast
      exact hOne

/- Every step keeps it so. -/
theorem apply
    (hCounted : m.Counted)
    (hIndexed : m.pool.Indexed)
    (s : Step) :
    (s.apply m).Counted := by
  have hWithin : m.pool.Within (s.apply m).pool :=
    (s.safe_run m).grown.within
  rcases s.cases_label with hLabel | ⟨opcode, l, hJump⟩ | ⟨l, rfl⟩
  · by_cases hCall : s.isInterfaceCall = true
    · cases s with
      | invoke kind owner name descriptor =>
          cases kind with
          | interface =>
              exact hCounted.invoke hIndexed owner name descriptor
          | _ => cases hCall
      | _ => cases hCall
    · rcases (Step.extends_apply_of_plain hLabel
        (Bool.eq_false_iff.mpr hCall) m).adds with
        ⟨is, hAdds, hKinds⟩
      refine hCounted.of_lines hWithin fun i hIn hOpcode => ?_
      rw [hAdds.lines] at hIn
      rcases List.mem_append.mp hIn with hOld | hNew
      · exact hOld
      · rcases List.mem_map.mp hNew with ⟨j, hThere, hLine⟩
        cases hLine
        exact absurd hOpcode (hKinds i hThere)
  · refine hCounted.of_lines hWithin fun i hIn _ => ?_
    rw [(Step.adds_jump hJump).1.lines] at hIn
    simpa using hIn
  · have hLines : (Step.apply m (.bind l)).lines.toList =
        m.lines.toList ++ [] := (m.adds_bind l).lines
    refine hCounted.of_lines hWithin fun i hIn _ => ?_
    rw [hLines, List.append_nil] at hIn
    exact hIn

theorem runAll
    (hCounted : m.Counted)
    (hIndexed : m.pool.Indexed)
    (steps : List Step) :
    (Step.runAll steps m).Counted := by
  induction steps generalizing m with
  | nil => exact hCounted
  | cons s steps ih =>
      exact ih (hCounted.apply hIndexed s)
        ((s.safe_run m).grown.indexed hIndexed)

end Counted

theorem Bare.counted
    {m : MethodDraft}
    (hBare : m.Bare) :
    m.Counted := by
  intro i hIn
  rw [hBare.lines] at hIn
  cases hIn

end MethodDraft

------------------------------------------------------------
-- Fields of Finished Code
------------------------------------------------------------

/- The size of finished code is one that sixteen bits can tell. -/
theorem MethodDraft.length_code_le
    {m m' : MethodDraft}
    {is : List Instruction}
    {member : Member}
    (hResolve : m.resolve = .ok is)
    (hFinish : Yields finish m member m') :
    (is.flatMap Instruction.encode).length ≤ 65535 := by
  unfold finish at hFinish
  simp only [yields_bind, yields_get] at hFinish
  rcases hFinish with ⟨_, m, ⟨rfl, rfl⟩, hFinish⟩
  rw [hResolve] at hFinish
  split at hFinish
  case h_1 => exact absurd hFinish yields_throw
  case h_2 hError => cases hError
  case h_3 _ hOk =>
      cases hOk
      split at hFinish
      case isTrue => exact absurd hFinish yields_throw
      case isFalse hSize => omega

/-
  A method of a class is finished.  The size of its code was
  checked.  If no sum has left its sixteen bits, the depth that
  it declares is as high as the stack ever was; and as long as
  the steps are regular, a sum leaves its sixteen bits exactly
  if the stack gets higher than they can tell.  The count of a
  call of an interface is right exactly if the arguments take
  254 slots at most.  (A step that writes two instructions
  casts first, and between them the stack is no higher than
  before.)
-/
theorem ClassDraft.fields_hold
    {version access flags : UInt16}
    {className superName name : String}
    {signature : MethodSig}
    {paramNames : List String}
    {c₀ c : ClassDraft}
    {m m' : MethodDraft}
    {member : Member}
    (hStart : start version access className superName = .ok c₀)
    (hBefore : Relation.ReflTransGen Access c₀ c)
    (hMethod : c.method flags name signature paramNames = .ok m)
    (steps : List Step)
    (hFinish : Yields MethodDraft.finish (Step.runAll steps m)
      member m') :
    ∃ (is : List Instruction) (body : CodeAttribute)
      (codeName : UInt16) (rest : List Attribute),
      member.attributes =
        { name := codeName, info := body.encode } :: rest ∧
      m'.pool.textAt? codeName = some "Code" ∧
      decodeCode body.code = .ok is ∧
      body.code.length ≤ 65535 ∧
      ((Step.runAll steps m).overflow = false →
        ∀ before, before <+: steps →
          (Step.runAll before m).height ≤ body.maxStack.toNat) ∧
      (Step.Always Step.Regular steps m →
        ((Step.runAll steps m).overflow = false ↔
          ∀ before, before <+: steps →
            (Step.runAll before m).height ≤ 65535)) ∧
      ∀ i ∈ is, i.opcode = .invokeinterface →
        ∃ n, i.argumentSlots? m'.pool = some n ∧
          i.count? = some (UInt8.ofNat (1 + n)) ∧
          ((UInt8.ofNat (1 + n)).toNat = 1 + n ↔ n ≤ 254) := by
  have hIndexed :=
    indexed_of_accesses hBefore (indexed_of_start hStart)
  have hBare := bare_method hMethod
  rcases MethodDraft.finish_body
    (indexed_runAll hIndexed hMethod steps) hFinish with
    ⟨is, body, codeName, rest, hResolve, hCode, hStack, -,
      hAttributes, hName⟩
  refine ⟨is, body, codeName, rest, hAttributes, hName, ?_, ?_, ?_,
    ?_, ?_⟩
  · rw [hCode]
    exact (laidOut_of_lined (hBare.lined steps)
      (mapM_eq_ok.mp hResolve)).1.decodeCode_encode
  · rw [hCode]
    exact MethodDraft.length_code_le hResolve hFinish
  · rw [hStack]
    exact MethodDraft.height_le_of_whole hBare.covered
  · intro hRegular
    refine ⟨fun hWhole before hBefore => ?_,
      fun hHigh => (hBare.gauged.runAll hRegular hHigh).whole⟩
    have hSmall := (Step.runAll steps m).maxStack.toNat_lt
    have hHeight := MethodDraft.height_le_of_whole hBare.covered
      hWhole before hBefore
    omega
  · intro i hIn hCall
    have hCounted := hBare.counted.runAll
      (indexed_runAll hIndexed hMethod []) steps
    rcases exists_arg_of_mapM hResolve hIn with ⟨line, hThere, hLine⟩
    cases line with
    | instruction j =>
        cases hLine
        rcases (hCounted i hThere hCall).within
          (Keeps.of_yields MethodDraft.safe_finish
            hFinish).grown.within with ⟨n, hSlots, hCount⟩
        exact ⟨n, hSlots, hCount, toNat_count_iff n⟩
    | jump x opcode l =>
        have hFits := (hBare.lined steps).fits hThere
        rcases Line.resolve_jump_iff.mp hLine with ⟨t, -, -, rfl⟩
        cases hCall
        cases hFits

------------------------------------------------------------
-- Samples
------------------------------------------------------------

/- A call of an interface with an argument of two slots. -/
def modestCall : List Step :=
  [.aconstNull,
    .lconst 0,
    .invoke .interface "I" "f" "(J)V",
    .returnValue (.primitive .void)]

/- A call of an interface with 128 such arguments. -/
def crowdedCall : List Step :=
  .aconstNull :: (List.replicate 128 (.lconst 0) ++
    [.invoke .interface "I" "f"
      ("(" ++ String.ofList (List.replicate 128 'J') ++ ")V"),
    .returnValue (.primitive .void)])

/- Whether a draft calls an interface with slots and a count. -/
def MethodDraft.counts
    (m : MethodDraft)
    (slots : Nat)
    (count : UInt8) : Bool :=
  m.lines.any fun
    | .instruction i =>
        i.opcode == .invokeinterface &&
          i.argumentSlots? m.pool == some slots &&
          i.count? == some count
    | .jump _ _ _ => false

theorem MethodDraft.exists_of_counts
    {m : MethodDraft}
    {slots : Nat}
    {count : UInt8}
    (hCounts : m.counts slots count = true) :
    ∃ i, Line.instruction i ∈ m.lines.toList ∧
      i.opcode = .invokeinterface ∧
      i.argumentSlots? m.pool = some slots ∧
      i.count? = some count := by
  rcases Array.any_eq_true'.mp hCounts with ⟨line, hIn, hLine⟩
  cases line with
  | instruction i =>
      simp only [Bool.and_eq_true, beq_iff_eq] at hLine
      exact ⟨i, hIn.val, hLine.1.1, hLine.1.2, hLine.2⟩
  | jump x opcode l => cases hLine

/- The fields of the first are right. -/
theorem modestCall_fields :
    ∃ (c : ClassDraft) (m m' : MethodDraft) (member : Member)
      (is : List Instruction) (body : CodeAttribute)
      (codeName : UInt16) (rest : List Attribute),
      ClassDraft.start 49 1 "A" "java/lang/Object" = .ok c ∧
      c.method 8 "m" plainMethod [] = .ok m ∧
      Yields MethodDraft.finish (Step.runAll modestCall m)
        member m' ∧
      member.attributes =
        { name := codeName, info := body.encode } :: rest ∧
      decodeCode body.code = .ok is ∧
      Step.Always Step.Regular modestCall m ∧
      (∀ before, before <+: modestCall →
        (Step.runAll before m).height ≤ body.maxStack.toNat) ∧
      (Step.runAll modestCall m).counts 2 3 = true := by
  have hDraft : ∃ c m,
      ClassDraft.start 49 1 "A" "java/lang/Object" = .ok c ∧
      c.method 8 "m" plainMethod [] = .ok m ∧
      (Step.runAll modestCall m).overflow = false ∧
      Step.Always Step.Regular modestCall m ∧
      (Step.runAll modestCall m).counts 2 3 = true ∧
      (outcomeOf MethodDraft.finish
        (Step.runAll modestCall m)).1.isOk = true :=
    ⟨_, _, rfl, rfl, by decide +kernel⟩
  rcases hDraft with ⟨c, m, hStart, hMethod, hWhole, hRegular,
    hCounts, hOk⟩
  rcases exists_yields_of_isOk hOk with ⟨member, m', hFinish⟩
  rcases ClassDraft.fields_hold hStart .refl hMethod modestCall
    hFinish with ⟨is, body, codeName, rest, hAttributes, -, hDecode,
      -, hDepth, -⟩
  exact ⟨c, m, m', member, is, body, codeName, rest, hStart, hMethod,
    hFinish, hAttributes, hDecode, hRegular, hDepth hWhole, hCounts⟩

/- The second is finished, but said to take one slot, not 257. -/
theorem crowdedCall_miscounted :
    ∃ (c : ClassDraft) (m m' : MethodDraft) (member : Member)
      (is : List Instruction) (body : CodeAttribute)
      (codeName : UInt16) (rest : List Attribute) (i : Instruction),
      ClassDraft.start 49 1 "A" "java/lang/Object" = .ok c ∧
      c.method 8 "m" plainMethod [] = .ok m ∧
      Yields MethodDraft.finish (Step.runAll crowdedCall m)
        member m' ∧
      member.attributes =
        { name := codeName, info := body.encode } :: rest ∧
      decodeCode body.code = .ok is ∧
      i ∈ is ∧ i.opcode = .invokeinterface ∧
      i.argumentSlots? m'.pool = some 256 ∧
      i.count? = some 1 := by
  have hDraft : ∃ c m,
      ClassDraft.start 49 1 "A" "java/lang/Object" = .ok c ∧
      c.method 8 "m" plainMethod [] = .ok m ∧
      (Step.runAll crowdedCall m).counts 256 1 = true ∧
      (outcomeOf MethodDraft.finish
        (Step.runAll crowdedCall m)).1.isOk = true :=
    ⟨_, _, rfl, rfl, by decide +kernel⟩
  rcases hDraft with ⟨c, m, hStart, hMethod, hCounts, hOk⟩
  rcases exists_yields_of_isOk hOk with ⟨member, m', hFinish⟩
  rcases MethodDraft.exists_of_counts hCounts with
    ⟨i, hIn, hCall, hSlots, hCount⟩
  rcases ClassDraft.mem_code_of_finish
    (ClassDraft.indexed_of_start hStart) hMethod hIn hFinish with
    ⟨is, body, codeName, rest, hAttributes, -, hDecode, hThere⟩
  have hWithin := (Keeps.of_yields MethodDraft.safe_finish
    hFinish).grown.within
  exact ⟨c, m, m', member, is, body, codeName, rest, i, hStart,
    hMethod, hFinish, hAttributes, hDecode, hThere, hCall,
    Instruction.argumentSlots?_within hWithin hSlots, hCount⟩

end Stratagem

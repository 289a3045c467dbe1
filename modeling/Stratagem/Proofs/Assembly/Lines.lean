import Stratagem.Proofs.Assembly.Discipline
import Stratagem.Proofs.Assembly.Faults

/-
  What steps add to the lines of a draft.

  Lines are added behind those that are there, and never taken
  away or changed.  A step that neither jumps nor binds a label
  adds instructions only, and leaves the labels alone, whether
  or not it fails.

  Key definitions include:
    * `Line.Fits`
    * `Line.bytes`
    * `Lined`
    * `MethodDraft.written`
    * `MethodDraft.Adds`
    * `MethodDraft.Extends`
    * `Emitter.Additive`
    * `Step.jump?`

  Main declarations:
    * `Step.additive_run`
    * `Step.adds_jump`
    * `Step.adds_apply`
    * `Step.adds_runAll`
-/

namespace Stratagem

open Jvm Emitter

------------------------------------------------------------
-- Lines One Behind Another
------------------------------------------------------------

/- Where a line stands. -/
def Line.offset : Line → Nat
  | .instruction i => i.offset
  | .jump x _ _ => x

/-
  A line whose operation takes its operands.  What branches is
  a jump to a label.
-/
def Line.Fits : Line → Prop
  | .instruction i => i.Legal ∧ i.opcode.isBranch = false
  | .jump _ opcode _ => opcode.isBranch = true

/- Lines one behind another, from one offset to another. -/
def Lined : Nat → List Line → Nat → Prop
  | start, [], stop => start = stop
  | start, l :: ls, stop =>
      l.offset = start ∧ l.Fits ∧ Lined (start + l.size) ls stop

theorem Lined.append
    {start stop last : Nat}
    {ks ls : List Line}
    (hFirst : Lined start ks stop)
    (hNext : Lined stop ls last) :
    Lined start (ks ++ ls) last := by
  induction ks generalizing start with
  | nil =>
      cases hFirst
      exact hNext
  | cons k ks ih =>
      rcases hFirst with ⟨hStart, hFits, hRest⟩
      exact ⟨hStart, hFits, ih hRest⟩

namespace MethodDraft

/- A draft became another by adding lines. -/
structure Adds
    (m : MethodDraft)
    (ls : List Line)
    (m' : MethodDraft) : Prop where
  lines : m'.lines.toList = m.lines.toList ++ ls
  lined : Lined m.offset ls m'.offset
  made : m.labels.size ≤ m'.labels.size
  higher : m.maxStack.toNat ≤ m'.maxStack.toNat
  numbered : m.Numbered → m'.Numbered
  fault : m'.fault = none → m.fault = none

namespace Adds

variable {m m₁ m' : MethodDraft} {ks ls : List Line}

theorem refl
    (m : MethodDraft) :
    m.Adds [] m :=
  ⟨(List.append_nil _).symm, rfl, Nat.le_refl _, Nat.le_refl _,
    id, id⟩

theorem trans
    (hFirst : m.Adds ks m₁)
    (hNext : m₁.Adds ls m') :
    m.Adds (ks ++ ls) m' := by
  refine ⟨?_, hFirst.lined.append hNext.lined,
    Nat.le_trans hFirst.made hNext.made,
    Nat.le_trans hFirst.higher hNext.higher,
    hNext.numbered ∘ hFirst.numbered, hFirst.fault ∘ hNext.fault⟩
  rw [hNext.lines, hFirst.lines, List.append_assoc]

/- No line is added, and no local. -/
theorem of_same
    (hSame : m.SameCode m')
    (hFault : m'.fault = none → m.fault = none) :
    m.Adds [] m' := by
  refine ⟨?_, hSame.offset.symm, ?_, hSame.higher, ?_, hFault⟩
  · rw [hSame.lines, List.append_nil]
  · rw [hSame.labels]
  · intro hNumbered
    rw [Numbered, hSame.locals]
    exact hNumbered

theorem line
    {l : Line}
    (hPlace : l.offset = m.offset)
    (hFits : l.Fits) :
    m.Adds [l] (m.append l) :=
  ⟨Array.toList_push, ⟨hPlace, hFits, rfl⟩, Nat.le_refl _,
    Nat.le_refl _, id, id⟩

end Adds

/-
  A draft became another by adding instructions with operations
  of a kind.
-/
structure Extends
    (Kind : Opcode → Prop)
    (m m' : MethodDraft) : Prop where
  adds : ∃ is : List Instruction,
    m.Adds (is.map Line.instruction) m' ∧ ∀ i ∈ is, Kind i.opcode
  labels : ∀ l, m'.labelAt l = m.labelAt l

namespace Extends

variable {m m₁ m' : MethodDraft} {Kind : Opcode → Prop}

theorem of_adds
    (hAdds : m.Adds [] m')
    (hLabels : ∀ l, m'.labelAt l = m.labelAt l) :
    m.Extends Kind m' :=
  ⟨⟨[], hAdds, List.forall_mem_nil _⟩, hLabels⟩

theorem refl
    (m : MethodDraft) :
    m.Extends Kind m :=
  of_adds (.refl m) fun _ => rfl

theorem trans
    (hFirst : m.Extends Kind m₁)
    (hNext : m₁.Extends Kind m') :
    m.Extends Kind m' := by
  rcases hFirst.adds with ⟨is, hAdds, hKind⟩
  rcases hNext.adds with ⟨js, hAdds', hKind'⟩
  refine ⟨⟨is ++ js, ?_, ?_⟩, fun l =>
    (hNext.labels l).trans (hFirst.labels l)⟩
  · rw [List.map_append]
    exact hAdds.trans hAdds'
  · intro i hIn
    rcases List.mem_append.mp hIn with hOld | hNew
    · exact hKind i hOld
    · exact hKind' i hNew

theorem of_same
    (hSame : m.SameCode m')
    (hFault : m'.fault = none → m.fault = none) :
    m.Extends Kind m' := by
  refine of_adds (.of_same hSame hFault) fun l => ?_
  rw [labelAt, labelAt, hSame.labels]

theorem instruction
    {i : Instruction}
    (hPlace : i.offset = m.offset)
    (hLegal : i.Legal)
    (hBranch : i.opcode.isBranch = false)
    (hKind : Kind i.opcode) :
    m.Extends Kind (m.append (.instruction i)) := by
  have hLine : m.Adds [.instruction i] (m.append (.instruction i)) :=
    .line hPlace ⟨hLegal, hBranch⟩
  exact ⟨⟨[i], hLine, List.forall_mem_singleton.mpr hKind⟩,
    fun _ => rfl⟩

end Extends

theorem fault_pop
    {m : MethodDraft}
    (hFault : m.pop.2.fault = none) :
    m.fault = none :=
  (exchanged_pop hFault).fault

end MethodDraft

------------------------------------------------------------
-- Written Bytes
------------------------------------------------------------

/- The bytes of a line; those for a distance are reserved. -/
def Line.bytes : Line → List UInt8
  | .instruction i => i.encode
  | .jump _ opcode _ => [opcode.toByte, 0, 0]

/- The bytes that were written into a draft so far. -/
def MethodDraft.written
    (m : MethodDraft) : List UInt8 :=
  m.lines.toList.flatMap Line.bytes

theorem Line.length_bytes
    (l : Line) :
    l.bytes.length = l.size := by
  cases l with
  | instruction i => exact i.length_encode
  | jump x opcode k => rfl

theorem MethodDraft.Adds.written
    {m m' : MethodDraft}
    {ls : List Line}
    (hAdds : m.Adds ls m') :
    m'.written = m.written ++ ls.flatMap Line.bytes := by
  rw [MethodDraft.written, hAdds.lines, List.flatMap_append]
  rfl

theorem Lined.length_bytes
    {start stop : Nat}
    {ls : List Line}
    (hLined : Lined start ls stop) :
    start + (ls.flatMap Line.bytes).length = stop := by
  induction ls generalizing start with
  | nil => exact hLined
  | cons l ls ih =>
      rcases hLined with ⟨-, -, hRest⟩
      rw [List.flatMap_cons, List.length_append, l.length_bytes,
        ← Nat.add_assoc]
      exact ih hRest

------------------------------------------------------------
-- Steps That Add Instructions
------------------------------------------------------------

/-
  Operations that neither branch nor count the slots of a call,
  and that are not written before another.
-/
def Opcode.isPlain
    (o : Opcode) : Bool :=
  !o.isBranch && o != .invokeinterface && o != .wide

theorem Opcode.isPlain_iff
    {o : Opcode} :
    o.isPlain = true ↔
      o.isBranch = false ∧ o ≠ .invokeinterface ∧ o ≠ .wide := by
  simp [isPlain, and_assoc]

namespace Emitter

/- A step that adds instructions of a kind, also when it fails. -/
abbrev Additive
    {α : Type}
    (Kind : Opcode → Prop)
    (x : Emitter α) : Prop :=
  Keeps (MethodDraft.Extends Kind) x

section Additions

variable {α β : Type} {Kind : Opcode → Prop}

theorem additive_pure
    (a : α) :
    Additive Kind (pure a) :=
  Keeps.pure .refl a

theorem additive_throw
    (e : ClassFileError) :
    Additive Kind (throw e : Emitter α) :=
  Keeps.throw .refl e

theorem additive_get :
    Additive Kind (get : Emitter MethodDraft) :=
  Keeps.get .refl

theorem Additive.bind
    {x : Emitter α}
    {f : α → Emitter β}
    (hFirst : Additive Kind x)
    (hNext : ∀ a, Additive Kind (f a)) :
    Additive Kind (x >>= f) :=
  Keeps.bind .trans hFirst hNext

theorem Additive.discard
    {x : Emitter α}
    (hStep : Additive Kind x) :
    Additive Kind (discard x) :=
  hStep.bind fun _ => additive_pure ()

/- The pool does not matter. -/
theorem additive_pooled
    (x : Pooling α) :
    Additive Kind (pooled x) :=
  fun _ => .of_adds
    ⟨(List.append_nil _).symm, rfl, Nat.le_refl _, Nat.le_refl _,
      id, id⟩
    fun _ => rfl

theorem additive_property
    (r : Except TypeError α) :
    Additive Kind (property r) := by
  cases r with
  | ok a => exact additive_pure a
  | error e => exact additive_throw _

theorem additive_push
    (v : VType) :
    Additive Kind (push v) :=
  fun m => .of_same ((MethodDraft.SameCode.refl m).push v) id

theorem additive_pop :
    Additive Kind pop :=
  fun m => .of_same (MethodDraft.SameCode.refl m).pop
    MethodDraft.fault_pop

theorem additive_popMany
    (n : Nat) :
    Additive Kind (modify (·.popMany n)) :=
  fun m => .of_same ((MethodDraft.SameCode.refl m).popMany n)
    fun hFault => (MethodDraft.exchanged_popMany n hFault).fault

theorem additive_terminate :
    Additive Kind (modify MethodDraft.terminate) :=
  fun m => .of_same (MethodDraft.SameCode.refl m).terminate id

theorem additive_write
    {opcode : Opcode}
    {operands : List UInt8}
    (hWide : opcode ≠ .wide)
    (hLength : operands.length = opcode.operandSize)
    (hBranch : opcode.isBranch = false)
    (hKind : Kind opcode) :
    Additive Kind (write opcode operands) :=
  fun _ => .instruction rfl ⟨hWide, hLength⟩ hBranch hKind

theorem additive_newLocal
    (name : String)
    (ty : Ty) :
    Additive Kind (newLocal name ty) := by
  intro m
  unfold outcomeOf newLocal
  split
  case isFalse => exact .refl m
  case isTrue hRoom =>
      exact .of_adds ⟨(List.append_nil _).symm, rfl, Nat.le_refl _,
        Nat.le_refl _, fun hNumbered => hNumbered.alloc hRoom, id⟩
        fun _ => rfl

theorem additive_field
    (owner name : String)
    (ty : Ty) :
    Additive Kind (field owner name ty) :=
  (additive_property _).bind fun _ => additive_pooled _

section Plain

variable (hPlain : ∀ o : Opcode, o.isPlain = true → Kind o)

include hPlain

theorem additive_plain
    {opcode : Opcode}
    {operands : List UInt8}
    (hOpcode : opcode.isPlain = true)
    (hLength : operands.length = opcode.operandSize) :
    Additive Kind (write opcode operands) := by
  rcases Opcode.isPlain_iff.mp hOpcode with ⟨hBranch, -, hWide⟩
  exact additive_write hWide hLength hBranch (hPlain _ hOpcode)

theorem additive_aconstNull :
    Additive Kind aconstNull :=
  (additive_plain hPlain (by rfl) (by rfl)).bind
    fun _ => additive_push _

theorem additive_ldc
    (index : UInt16) :
    Additive Kind (ldc index) := by
  unfold ldc
  split <;>
    exact additive_plain hPlain (by rfl) (by rfl)

/- A constant from the pool is loaded. -/
theorem additive_pooled_ldc
    (x : Pooling UInt16)
    (v : VType) :
    Additive Kind (do
      let index ← pooled x
      ldc index
      push v) :=
  (additive_pooled x).bind fun index =>
    (additive_ldc hPlain index).bind fun _ => additive_push v

theorem additive_pushWide
    (c : Constant)
    (v : VType) :
    Additive Kind (pushWide c v) :=
  (additive_pooled _).bind fun _ =>
    (additive_plain hPlain (by rfl) (by rfl)).bind
      fun _ => additive_push v

theorem additive_iconst
    (n : Int32) :
    Additive Kind (iconst n) := by
  unfold iconst
  dsimp only
  split
  · exact (additive_plain hPlain (by rfl) (by rfl)).bind
      fun _ => additive_push _
  · split
    · exact (additive_plain hPlain (by rfl) (by rfl)).bind
        fun _ => additive_push _
    · split
      · exact (additive_plain hPlain (by rfl) (by rfl)).bind
          fun _ => additive_push _
      · exact additive_pooled_ldc hPlain _ _

/- A constant in its short form, or else as given. -/
theorem additive_shortOr
    {n : Nat}
    {α : Type}
    [DecidableEq α]
    {short : Fin n → Opcode}
    {long : Emitter Unit}
    (value : Fin n → α)
    (x : α)
    (v : VType)
    (hShort : ∀ k, (short k).isPlain = true)
    (hSize : ∀ k, (short k).operandSize = 0)
    (hLong : Additive Kind long) :
    Additive Kind (shortOr short value x v long) := by
  refine shortOr_cases (fun k _ => ?_) hLong
  have hWrite : Additive Kind (write (short k) []) :=
    additive_plain hPlain (hShort k) (hSize k).symm
  exact hWrite.bind fun _ => additive_push v

theorem additive_lconst
    (n : Int64) :
    Additive Kind (lconst n) :=
  additive_shortOr hPlain _ _ _ (fun _ => rfl) (fun _ => rfl)
    (additive_pushWide hPlain _ _)

theorem additive_fconst
    (x : Binary32) :
    Additive Kind (fconst x) :=
  additive_shortOr hPlain _ _ _ (fun _ => rfl) (fun _ => rfl)
    (additive_pooled_ldc hPlain _ _)

theorem additive_dconst
    (x : Binary64) :
    Additive Kind (dconst x) :=
  additive_shortOr hPlain _ _ _ (fun _ => rfl) (fun _ => rfl)
    (additive_pushWide hPlain _ _)

theorem additive_onSlot
    {short : Fin 4 → Opcode}
    {long : Opcode}
    (slot : Nat)
    (hLegal : ∀ x, (Instruction.onSlot x short long slot).Legal)
    (hShort : ∀ k, (short k).isPlain = true)
    (hLong : long.isPlain = true) :
    Additive Kind (onSlot short long slot) := by
  rw [onSlot_eq]
  intro m
  have hOpcode : (Instruction.onSlot m.offset short long
      slot).opcode.isPlain = true :=
    Instruction.onSlot_cases
      (P := fun i => i.opcode.isPlain = true)
      (fun _ => hShort _) (fun _ => hLong) hLong
  exact .instruction (Instruction.offset_onSlot _ _ _ _)
    (hLegal m.offset) (Opcode.isPlain_iff.mp hOpcode).1
    (hPlain _ hOpcode)

theorem additive_load
    (l : Local) :
    Additive Kind (load l) := by
  refine additive_get.bind fun m => ?_
  split
  · exact additive_pure ()
  · refine additive_get.bind fun _ => ?_
    exact (additive_onSlot hPlain _
      (fun x => legal_onSlot_load x _ _) (fun _ => rfl) rfl).bind
        fun _ => additive_push _

theorem additive_store
    (l : Local) :
    Additive Kind (store l) := by
  intro m
  cases hLocal : m.locals[l.index]? with
  | none =>
      rw [outcomeOf_store_none hLocal]
      exact .refl m
  | some v =>
      rw [outcomeOf_store hLocal]
      have hPop : m.Extends Kind m.pop.2 := additive_pop m
      have hWrite := additive_onSlot hPlain v.slot
        (fun x => legal_onSlot_store x (.ofTy v.ty) v.slot)
        (fun _ => rfl) rfl m.pop.2
      rw [onSlot_eq] at hWrite
      refine (hPop.trans hWrite).trans (.of_adds
        ⟨(List.append_nil _).symm, rfl, Nat.le_refl _,
          Nat.le_refl _, ?_, id⟩
        fun _ => rfl)
      intro hNumbered w hIn
      rcases Array.mem_or_eq_of_mem_setIfInBounds hIn with
        hOld | rfl
      · exact hNumbered w hOld
      · rw [← locals_pop m] at hLocal
        exact hNumbered v (Array.mem_of_getElem? hLocal)

theorem additive_loadThis :
    Additive Kind loadThis := by
  refine additive_get.bind fun m => ?_
  split
  · exact additive_load hPlain _
  · exact additive_pure ()

theorem additive_drop :
    Additive Kind drop := by
  refine additive_pop.bind fun v => ?_
  split <;>
    exact additive_plain hPlain (by rfl) (by rfl)

theorem additive_dup :
    Additive Kind dup :=
  (additive_plain hPlain (by rfl) (by rfl)).bind
    fun _ => additive_pop.bind fun v =>
      (additive_push v).bind fun _ => additive_push v

theorem additive_swap :
    Additive Kind swap :=
  (additive_plain hPlain (by rfl) (by rfl)).bind
    fun _ => additive_pop.bind fun a => additive_pop.bind fun b =>
      (additive_push a).bind fun _ => additive_push b

theorem additive_new
    (name : String) :
    Additive Kind (new name) :=
  (additive_pooled _).bind fun _ => additive_get.bind fun _ =>
    (additive_plain hPlain (by rfl) (by rfl)).bind
      fun _ => additive_push _

theorem additive_checkcast
    (ty : Ty) :
    Additive Kind (checkcast ty) := by
  unfold checkcast
  split
  · split
    · exact additive_pure ()
    · exact (additive_pooled _).bind fun _ =>
        (additive_plain hPlain (by rfl) (by rfl)).bind
          fun _ => additive_pop.discard.bind fun _ =>
            additive_push _
  · exact additive_throw _

theorem additive_athrow :
    Additive Kind athrow :=
  (additive_plain hPlain (by rfl) (by rfl)).bind
    fun _ => additive_pop.discard.bind fun _ => additive_terminate

theorem additive_getstatic
    (owner name : String)
    (ty : Ty) :
    Additive Kind (getstatic owner name ty) :=
  (additive_field owner name ty).bind fun _ =>
    (additive_plain hPlain (by rfl) (by rfl)).bind
      fun _ => additive_push _

theorem additive_putstatic
    (owner name : String)
    (ty : Ty) :
    Additive Kind (putstatic owner name ty) :=
  (additive_field owner name ty).bind fun _ =>
    (additive_plain hPlain (by rfl) (by rfl)).bind
      fun _ => additive_pop.discard

theorem additive_returnValue
    (ty : Ty) :
    Additive Kind (returnValue ty) := by
  unfold returnValue
  split
  · exact (additive_plain hPlain (by rfl) (by rfl)).bind fun _ =>
      additive_terminate
  · exact additive_pop.discard.bind fun _ =>
      (additive_plain hPlain (by rfl) (by rfl)).bind fun _ =>
        additive_terminate

end Plain

theorem additive_popReceiver
    (kind : CallKind)
    (owner name : String) :
    Additive Kind (popReceiver kind owner name) := by
  unfold popReceiver
  split
  · exact additive_pure ()
  · refine additive_pop.bind fun receiver => ?_
    split
    · exact fun m =>
        .of_same ((MethodDraft.SameCode.refl m).replace _ _) id
    · exact additive_pure ()

theorem additive_writeCall
    {kind : CallKind}
    (index : UInt16)
    (params : List Ty)
    (hKind : Kind kind.opcode) :
    Additive Kind (writeCall kind index params) := by
  rw [writeCall_eq]
  refine Additive.bind (additive_write ?_ ?_ ?_ hKind) fun _ m =>
    .of_same ((MethodDraft.SameCode.refl m).addUp _) id
  · cases kind <;> nofun
  · cases kind <;> rfl
  · cases kind <;> rfl

theorem additive_invoke
    (kind : CallKind)
    (owner name descriptor : String)
    (hKind : Kind kind.opcode) :
    Additive Kind (invoke kind owner name descriptor) := by
  unfold invoke
  split
  case h_1 => exact additive_throw _
  case h_2 params result _ =>
      refine (additive_pooled _).bind fun index =>
        (additive_writeCall index params hKind).bind fun _ =>
          (additive_popMany _).bind fun _ =>
            (additive_popReceiver _ _ _).bind fun _ => ?_
      split
      · exact additive_push _
      · exact additive_pure ()

theorem additive_box
    (ty : Ty)
    (hStatic : Kind .invokestatic) :
    Additive Kind (box ty) := by
  unfold box
  split
  · exact additive_pure ()
  · exact (additive_property _).bind fun _ =>
      (additive_property _).bind fun _ =>
        (additive_property _).bind fun _ =>
          additive_invoke .static _ _ _ hStatic

theorem additive_unbox
    (ty : Ty)
    (hPlain : ∀ o : Opcode, o.isPlain = true → Kind o) :
    Additive Kind (unbox ty) := by
  unfold unbox
  split
  · exact (additive_checkcast hPlain _).bind fun _ =>
      (additive_property _).bind fun _ =>
        (additive_property _).bind fun _ =>
          additive_invoke .virtual _ _ _
            (hPlain _ rfl)
  · exact additive_checkcast hPlain _

theorem additive_newLabel :
    Additive Kind newLabel := by
  intro m
  refine .of_adds ⟨(List.append_nil _).symm, rfl, ?_,
    Nat.le_refl _, id, id⟩ (labelAt_push m)
  change m.labels.size ≤ (m.labels.push {}).size
  rw [Array.size_push]
  exact Nat.le_succ _

end Additions

end Emitter

------------------------------------------------------------
-- Labels
------------------------------------------------------------

namespace MethodDraft

variable {m m' : MethodDraft} {l : Label}

/- A label that is set, if it is one of the draft's. -/
theorem labelAt_setIfInBounds
    {state : LabelState}
    (hLabels : m'.labels = m.labels.setIfInBounds l.index state)
    (k : Label) :
    m'.labelAt k =
      if l = k ∧ l.index < m.labels.size then state
      else m.labelAt k := by
  by_cases hIn : l.index < m.labels.size
  · rw [labelAt_set hLabels hIn]
    by_cases hSame : l = k
    · rw [if_pos hSame, if_pos ⟨hSame, hIn⟩]
    · rw [if_neg hSame, if_neg fun h => hSame h.1]
  · rw [if_neg fun h => hIn h.2, labelAt, labelAt, hLabels,
      Array.setIfInBounds_eq_of_size_le (Nat.not_lt.mp hIn)]

theorem adds_jump
    {opcode : Opcode}
    (m : MethodDraft)
    (l : Label)
    (hBranch : opcode.isBranch = true) :
    m.Adds [.jump m.offset opcode l] (m.jump opcode l) := by
  refine ⟨Array.toList_push, ⟨rfl, hBranch, rfl⟩, ?_,
    Nat.le_refl _, id, id⟩
  simp only [jump, append, Array.size_setIfInBounds]
  exact Nat.le_refl _

/- A label that is jumped to is known for the stack here. -/
theorem labelAt_jump
    (opcode : Opcode)
    (m : MethodDraft)
    (l k : Label) :
    (m.jump opcode l).labelAt k =
      if l = k ∧ l.index < m.labels.size then
        { m.labelAt l with
          entry := (m.labelAt l).entry <|> some m.snapshot
          targeted := true }
      else m.labelAt k :=
  labelAt_setIfInBounds rfl k

/- A jump leaves its label where it is, or nowhere. -/
theorem offset_labelAt_jump
    (opcode : Opcode)
    (m : MethodDraft)
    (l k : Label) :
    ((m.jump opcode l).labelAt k).offset =
      (m.labelAt k).offset := by
  rw [labelAt_jump]
  split
  case isTrue hSame => rw [hSame.1]
  case isFalse => rfl

/- A label that has no offset yet gets that of the end. -/
theorem bind_eq
    (hFault : (m.bind l).fault = none) :
    (m.labelAt l).offset = none ∧
      ∃ entry, m.bind l = { m.resume entry with
        labels := m.labels.setIfInBounds l.index
          { m.labelAt l with
            offset := some m.offset
            entry := some entry } } := by
  unfold bind at hFault ⊢
  dsimp only at hFault ⊢
  split at hFault
  case isTrue =>
      cases hKept : m.fault <;> simp [blame, hKept] at hFault
  case isFalse hUnbound =>
      rw [if_neg hUnbound]
      exact ⟨by simpa [labelAt] using hUnbound, _, rfl⟩

theorem adds_bind
    (m : MethodDraft)
    (l : Label) :
    m.Adds [] (m.bind l) := by
  unfold bind
  dsimp only
  split
  case isTrue =>
      refine ⟨(List.append_nil _).symm, rfl, Nat.le_refl _,
        Nat.le_refl _, id, ?_⟩
      intro hFault
      cases hKept : m.fault <;> simp [blame, hKept] at hFault
  case isFalse =>
      refine ⟨(List.append_nil _).symm, rfl, ?_, Nat.le_refl _,
        id, id⟩
      rw [Array.size_setIfInBounds]
      exact Nat.le_refl _

theorem offset_labelAt_bind
    {k : Label}
    {x : Nat}
    (hFault : (m.bind l).fault = none) :
    ((m.bind l).labelAt k).offset = some x ↔
      (m.labelAt k).offset = some x ∨
        (l = k ∧ k.index < m.labels.size ∧ m.offset = x) := by
  rcases bind_eq hFault with ⟨hUnbound, entry, hBound⟩
  rw [labelAt_setIfInBounds (congrArg MethodDraft.labels hBound) k]
  split
  case isTrue hHere =>
      rcases hHere with ⟨rfl, hIn⟩
      simp [hUnbound, hIn]
  case isFalse hElsewhere =>
      constructor
      · exact Or.inl
      · rintro (hOld | ⟨rfl, hIn, -⟩)
        · exact hOld
        · exact absurd ⟨rfl, hIn⟩ hElsewhere

end MethodDraft

------------------------------------------------------------
-- All Steps
------------------------------------------------------------

namespace Step

/- The operation of a jump and the label that it names. -/
def jump? : Step → Option (Opcode × Label)
  | .goto l => some (.goto, l)
  | .ifnull l => some (.ifnull, l)
  | .ifnonnull l => some (.ifnonnull, l)
  | _ => none

/- Whether a step calls a method of an interface. -/
def isInterfaceCall : Step → Bool
  | .invoke .interface _ _ _ => true
  | _ => false

variable {Kind : Opcode → Prop} {m : MethodDraft} {s : Step}

/- A step that names no label adds instructions. -/
theorem additive_run
    (hPlain : ∀ o : Opcode, o.isPlain = true → Kind o)
    (hCall : s.isInterfaceCall = true → Kind .invokeinterface)
    (hLabel : s.label? = none) :
    Additive Kind s.run := by
  cases s with
  | aconstNull => exact additive_aconstNull hPlain
  | iconst n => exact additive_iconst hPlain n
  | lconst n => exact additive_lconst hPlain n
  | fconst x => exact additive_fconst hPlain x
  | dconst x => exact additive_dconst hPlain x
  | ldcString s => exact additive_pooled_ldc hPlain _ _
  | ldcClass name => exact additive_pooled_ldc hPlain _ _
  | load l => exact additive_load hPlain l
  | store l => exact additive_store hPlain l
  | newLocal name ty =>
      exact (additive_newLocal name ty).discard
  | loadThis => exact additive_loadThis hPlain
  | drop => exact additive_drop hPlain
  | dup => exact additive_dup hPlain
  | swap => exact additive_swap hPlain
  | new name => exact additive_new hPlain name
  | checkcast ty => exact additive_checkcast hPlain ty
  | athrow => exact additive_athrow hPlain
  | getstatic owner name ty =>
      exact additive_getstatic hPlain owner name ty
  | putstatic owner name ty =>
      exact additive_putstatic hPlain owner name ty
  | invoke kind owner name d =>
      refine additive_invoke kind owner name d ?_
      cases kind with
      | interface => exact hCall rfl
      | _ => exact hPlain _ rfl
  | box ty => exact additive_box ty (hPlain _ rfl)
  | unbox ty => exact additive_unbox ty hPlain
  | newLabel => exact additive_newLabel.discard
  | returnValue ty => exact additive_returnValue hPlain ty
  | bind l => cases hLabel
  | goto l => cases hLabel
  | ifnull l => cases hLabel
  | ifnonnull l => cases hLabel

/- In particular it adds instructions of any kind. -/
theorem extends_apply
    (hLabel : s.label? = none)
    (m : MethodDraft) :
    m.Extends (fun _ => True) (s.apply m) :=
  additive_run (fun _ _ => trivial) (fun _ => trivial) hLabel m

/- Only a call of an interface is written as one. -/
theorem extends_apply_of_plain
    (hLabel : s.label? = none)
    (hCall : s.isInterfaceCall = false)
    (m : MethodDraft) :
    m.Extends (· ≠ .invokeinterface) (s.apply m) := by
  refine additive_run (fun o hPlain => ?_) (fun hYes => ?_) hLabel m
  · exact (Opcode.isPlain_iff.mp hPlain).2.1
  · rw [hCall] at hYes
    cases hYes

/- A step adds instructions, jumps to a label or binds one. -/
theorem cases_label
    (s : Step) :
    s.label? = none ∨ (∃ opcode l, s.jump? = some (opcode, l)) ∨
      ∃ l, s = .bind l := by
  cases s with
  | goto l => exact Or.inr (Or.inl ⟨_, _, rfl⟩)
  | ifnull l => exact Or.inr (Or.inl ⟨_, _, rfl⟩)
  | ifnonnull l => exact Or.inr (Or.inl ⟨_, _, rfl⟩)
  | bind l => exact Or.inr (Or.inr ⟨l, rfl⟩)
  | _ => exact Or.inl rfl

theorem jump?_of_label?
    (hLabel : s.label? = none) :
    s.jump? = none := by
  cases s <;> first | rfl | cases hLabel

/-
  A jump adds one line, which stands at the end.  A value that
  is tested is taken first.
-/
theorem adds_jump
    {opcode : Opcode}
    {l : Label}
    (hJump : s.jump? = some (opcode, l)) :
    m.Adds [.jump m.offset opcode l] (s.apply m) ∧
      ∀ k, ((s.apply m).labelAt k).offset =
        (m.labelAt k).offset := by
  have hTested : ∀ {opcode : Opcode}, opcode.isBranch = true →
      m.Adds [.jump m.offset opcode l] (m.pop.2.jump opcode l) ∧
        ∀ k, ((m.pop.2.jump opcode l).labelAt k).offset =
          (m.labelAt k).offset := by
    intro opcode hBranch
    have hPop := (MethodDraft.SameCode.refl m).pop
    have hJump := m.pop.2.adds_jump l hBranch
    rw [hPop.offset] at hJump
    refine ⟨(MethodDraft.Adds.of_same hPop
      MethodDraft.fault_pop).trans hJump, fun k => ?_⟩
    rw [MethodDraft.offset_labelAt_jump, MethodDraft.labelAt,
      MethodDraft.labelAt, hPop.labels]
  cases s with
  | goto l =>
      cases hJump
      have hLine : m.Adds [.jump m.offset .goto l] (m.jump .goto l) :=
        m.adds_jump l rfl
      exact ⟨hLine.trans (.of_same
        (MethodDraft.SameCode.refl _).terminate id),
        m.offset_labelAt_jump .goto l⟩
  | ifnull l =>
      cases hJump
      exact hTested rfl
  | ifnonnull l =>
      cases hJump
      exact hTested rfl
  | _ => cases hJump

/- Every step adds lines at the end. -/
theorem adds_apply
    (s : Step)
    (m : MethodDraft) :
    ∃ ls, m.Adds ls (s.apply m) := by
  rcases s.cases_label with hLabel | ⟨opcode, l, hJump⟩ | ⟨l, rfl⟩
  · rcases (extends_apply hLabel m).adds with ⟨is, hAdds, -⟩
    exact ⟨_, hAdds⟩
  · exact ⟨_, (adds_jump hJump).1⟩
  · exact ⟨[], m.adds_bind l⟩

theorem runAll_append
    (before after : List Step)
    (m : MethodDraft) :
    runAll (before ++ after) m = runAll after (runAll before m) :=
  List.foldl_append

theorem adds_runAll
    (steps : List Step)
    (m : MethodDraft) :
    ∃ ls, m.Adds ls (runAll steps m) := by
  induction steps generalizing m with
  | nil => exact ⟨[], .refl m⟩
  | cons s steps ih =>
      rcases s.adds_apply m with ⟨ks, hFirst⟩
      rcases ih (s.apply m) with ⟨ls, hRest⟩
      exact ⟨ks ++ ls, hFirst.trans hRest⟩

end Step

end Stratagem

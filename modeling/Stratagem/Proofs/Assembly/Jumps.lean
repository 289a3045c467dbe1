import Stratagem.Proofs.Assembly.Access
import Stratagem.Proofs.Assembly.Lines

/-
  Jumps go where their labels are bound.

  When a method is finished, each jump gets the distance from
  where it was written to where its label was bound, and no
  other byte is touched.  A method cannot be finished for the
  sake of a jump if and only if a label that is jumped to was
  never bound, or is too far away.

  Key definitions include:
    * `Step.Sometime`
    * `Step.JumpsAt`
    * `Step.BindsAt`
    * `Patched`

  Main declarations:
    * `Step.jump_mem_runAll`
    * `Step.offset_labelAt_runAll`
    * `getElem?_encode_of_lined`
    * `MethodDraft.fails_finish_iff`
    * `ClassDraft.jumps_patched`
-/

namespace Stratagem

open Jvm

------------------------------------------------------------
-- Runs
------------------------------------------------------------

namespace Step

/- Something holds of a step where it is taken. -/
def Sometime
    (P : MethodDraft → Step → Prop) :
    List Step → MethodDraft → Prop
  | [], _ => False
  | s :: steps, m => P m s ∨ Sometime P steps (s.apply m)

instance decidableSometime
    (P : MethodDraft → Step → Prop)
    [∀ m s, Decidable (P m s)] :
    ∀ steps m, Decidable (Sometime P steps m)
  | [], _ => isFalse id
  | s :: steps, m =>
      have := decidableSometime P steps (s.apply m)
      inferInstanceAs
        (Decidable (P m s ∨ Sometime P steps (s.apply m)))

/- A jump to a label is written at an offset. -/
def JumpsAt
    (steps : List Step)
    (m : MethodDraft)
    (x : Nat)
    (opcode : Opcode)
    (l : Label) : Prop :=
  Sometime (fun m s => m.offset = x ∧ s.jump? = some (opcode, l))
    steps m

instance
    (steps : List Step)
    (m : MethodDraft)
    (x : Nat)
    (opcode : Opcode)
    (l : Label) :
    Decidable (JumpsAt steps m x opcode l) :=
  decidableSometime _ steps m

/- A label of the method is bound to an offset. -/
def BindsAt
    (steps : List Step)
    (m : MethodDraft)
    (l : Label)
    (x : Nat) : Prop :=
  Sometime
    (fun m s =>
      s = .bind l ∧ l.index < m.labels.size ∧ m.offset = x)
    steps m

section Runs

variable {m : MethodDraft} {opcode : Opcode} {l : Label} {x : Nat}

/- A step adds at most the jump that it is. -/
theorem jump_mem_apply
    (s : Step) :
    Line.jump x opcode l ∈ (s.apply m).lines.toList ↔
      Line.jump x opcode l ∈ m.lines.toList ∨
        (m.offset = x ∧ s.jump? = some (opcode, l)) := by
  rcases s.cases_label with hLabel | ⟨o, k, hJump⟩ | ⟨k, rfl⟩
  · rcases (extends_apply hLabel m).adds with ⟨is, hAdds, -⟩
    rw [hAdds.lines, List.mem_append, jump?_of_label? hLabel]
    simp
  · rw [(adds_jump hJump).1.lines, List.mem_append, hJump]
    simp [eq_comm]
  · have hLines := (m.adds_bind k).lines
    rw [List.append_nil] at hLines
    have hApply : (Step.apply m (.bind k)).lines.toList =
        m.lines.toList := hLines
    rw [hApply]
    simp [jump?]

/- The jumps of a draft are those that were taken into it. -/
theorem jump_mem_runAll
    (steps : List Step) :
    Line.jump x opcode l ∈ (runAll steps m).lines.toList ↔
      Line.jump x opcode l ∈ m.lines.toList ∨
        JumpsAt steps m x opcode l := by
  induction steps generalizing m with
  | nil => exact ⟨Or.inl, fun h => h.resolve_right id⟩
  | cons s steps ih =>
      have hRest := ih (m := s.apply m)
      rw [jump_mem_apply, or_assoc] at hRest
      exact hRest

/- A step binds at most the label that it names. -/
theorem offset_labelAt_apply
    (s : Step)
    (hFault : (s.apply m).fault = none) :
    ((s.apply m).labelAt l).offset = some x ↔
      (m.labelAt l).offset = some x ∨
        (s = .bind l ∧ l.index < m.labels.size ∧ m.offset = x) := by
  rcases s.cases_label with hLabel | ⟨o, k, hJump⟩ | ⟨k, rfl⟩
  · rw [(extends_apply hLabel m).labels l, or_iff_left]
    rintro ⟨rfl, -⟩
    cases hLabel
  · rw [(adds_jump hJump).2 l, or_iff_left]
    rintro ⟨rfl, -⟩
    cases hJump
  · have hBound := m.offset_labelAt_bind (l := k) (k := l) (x := x)
      hFault
    rw [Step.bind.injEq]
    exact hBound

/- The labels of a draft are where they were bound. -/
theorem offset_labelAt_runAll
    (steps : List Step)
    (hFault : (runAll steps m).fault = none) :
    ((runAll steps m).labelAt l).offset = some x ↔
      (m.labelAt l).offset = some x ∨ BindsAt steps m l x := by
  induction steps generalizing m with
  | nil => exact ⟨Or.inl, fun h => h.resolve_right id⟩
  | cons s steps ih =>
      rcases adds_runAll steps (s.apply m) with ⟨ls, hAdds⟩
      have hRest := ih (m := s.apply m) hFault
      rw [offset_labelAt_apply s (hAdds.fault hFault), or_assoc]
        at hRest
      exact hRest

end Runs

end Step

------------------------------------------------------------
-- Resolved Lines
------------------------------------------------------------

/- A distance that two bytes can hold with a sign. -/
def InReach
    (x target : Nat) : Prop :=
  -32768 ≤ (target : Int) - x ∧ (target : Int) - x ≤ 32767

section Resolved

variable {method : String} {labels : Array LabelState}
variable {i : Instruction}

/- What a jump becomes, and where its label must be for that. -/
theorem Line.resolve_jump_iff
    {x : Nat}
    {opcode : Opcode}
    {l : Label} :
    (Line.jump x opcode l).resolve method labels = .ok i ↔
      ∃ t, (labels.getD l.index {}).offset = some t ∧ InReach x t ∧
        i = {
          offset := x
          opcode
          operands :=
            be16 (Int16.ofInt ((t : Int) - x)).toUInt16 } := by
  unfold Line.resolve InReach
  dsimp only
  cases (labels.getD l.index {}).offset with
  | none =>
      constructor
      · rintro ⟨⟩
      · rintro ⟨t, hTarget, -⟩
        cases hTarget
  | some t =>
      dsimp only
      split
      case isTrue hNear =>
          constructor
          · rintro ⟨⟩
            exact ⟨t, rfl, hNear, rfl⟩
          · rintro ⟨_, hTarget, -, rfl⟩
            cases hTarget
            rfl
      case isFalse hFar =>
          constructor
          · rintro ⟨⟩
          · rintro ⟨_, hTarget, hNear, -⟩
            cases hTarget
            exact absurd hNear hFar

/- Only for its label a line cannot become an instruction. -/
theorem Line.resolve_error_iff
    {l : Line} :
    (∃ e, l.resolve method labels = .error e) ↔
      ∃ x opcode k, l = .jump x opcode k ∧
        ∀ t, (labels.getD k.index {}).offset = some t →
          ¬ InReach x t := by
  cases l with
  | instruction i =>
      constructor
      · rintro ⟨e, hError⟩
        cases hError
      · rintro ⟨x, opcode, k, hLine, -⟩
        cases hLine
  | jump x opcode k =>
      constructor
      · rintro ⟨e, hError⟩
        refine ⟨x, opcode, k, rfl, fun t hTarget hNear => ?_⟩
        have hOk : (Line.jump x opcode k).resolve method labels =
            .ok _ :=
          Line.resolve_jump_iff.mpr ⟨t, hTarget, hNear, rfl⟩
        rw [hError] at hOk
        cases hOk
      · rintro ⟨_, _, _, hLine, hFar⟩
        cases hLine
        cases hResult : (Line.jump x opcode k).resolve method
          labels with
        | error e => exact ⟨e, rfl⟩
        | ok i =>
            rcases Line.resolve_jump_iff.mp hResult with
              ⟨t, hTarget, hNear, -⟩
            exact absurd hNear (hFar t hTarget)

/- Operations that branch take two bytes. -/
theorem Opcode.operandSize_of_isBranch
    {o : Opcode}
    (hBranch : o.isBranch = true) :
    o ≠ .wide ∧ o.operandSize = 2 := by
  cases o <;> first | exact ⟨nofun, rfl⟩ | cases hBranch

/- What a line becomes stands where the line does. -/
theorem Line.Fits.resolve
    {l : Line}
    (hFits : l.Fits)
    (hLine : l.resolve method labels = .ok i) :
    i.offset = l.offset ∧ i.size = l.size ∧ i.Legal := by
  cases l with
  | instruction j =>
      cases hLine
      exact ⟨rfl, rfl, hFits.1⟩
  | jump x opcode k =>
      rcases Line.resolve_jump_iff.mp hLine with ⟨t, -, -, rfl⟩
      rcases Opcode.operandSize_of_isBranch hFits with ⟨hWide, hTwo⟩
      exact ⟨rfl, rfl, hWide, hTwo.symm⟩

variable {start stop : Nat} {ls : List Line}
variable {is : List Instruction}

theorem laidOut_of_lined
    (hLined : Lined start ls stop)
    (hResolve : List.Forall₂
      (fun l i => l.resolve method labels = .ok i) ls is) :
    LaidOut start is ∧
      start + (is.flatMap Instruction.encode).length = stop := by
  induction hResolve generalizing start with
  | nil => exact ⟨trivial, hLined⟩
  | @cons l i ls is hLine hRest ih =>
      rcases hLined with ⟨hStart, hFits, hLined⟩
      rcases hFits.resolve hLine with ⟨hOffset, hSize, hLegal⟩
      rcases ih hLined with ⟨hLaid, hLength⟩
      refine ⟨⟨hOffset.trans hStart, hLegal, ?_⟩, ?_⟩
      · rw [Instruction.next, hOffset, hStart, hSize]
        exact hLaid
      · rw [List.flatMap_cons, List.length_append,
          Instruction.length_encode, hSize, ← Nat.add_assoc]
        exact hLength

/- One line keeps all bytes but those of a distance. -/
theorem Line.getElem?_encode
    {l : Line}
    {k : Nat}
    {b : UInt8}
    (hLine : l.resolve method labels = .ok i)
    (hByte : l.bytes[k]? = some b)
    (hOutside : ∀ x opcode j, l = .jump x opcode j → k = 0) :
    i.encode[k]? = some b := by
  cases l with
  | instruction j =>
      cases hLine
      exact hByte
  | jump x opcode j =>
      rcases Line.resolve_jump_iff.mp hLine with ⟨t, -, -, rfl⟩
      cases hOutside x opcode j rfl
      exact hByte

/- And so do lines one behind another. -/
theorem getElem?_encode_of_lined
    {k : Nat}
    {b : UInt8}
    (hLined : Lined start ls stop)
    (hResolve : List.Forall₂
      (fun l i => l.resolve method labels = .ok i) ls is)
    (hByte : (ls.flatMap Line.bytes)[k]? = some b)
    (hOutside : ∀ x opcode l, Line.jump x opcode l ∈ ls →
      start + k ≠ x + 1 ∧ start + k ≠ x + 2) :
    (is.flatMap Instruction.encode)[k]? = some b := by
  induction hResolve generalizing start k with
  | nil => exact hByte
  | @cons l i ls is hLine hRest ih =>
      rcases hLined with ⟨hStart, hFits, hLined⟩
      have hBytes := l.length_bytes
      have hCode := i.length_encode.trans (hFits.resolve hLine).2.1
      rw [List.flatMap_cons] at hByte ⊢
      rcases Nat.lt_or_ge k l.size with hHere | hLater
      · rw [List.getElem?_append_left (hBytes ▸ hHere)] at hByte
        rw [List.getElem?_append_left (hCode ▸ hHere)]
        refine Line.getElem?_encode hLine hByte ?_
        rintro x opcode j rfl
        have hOther := hOutside x opcode j List.mem_cons_self
        have hThree : k < 3 := hHere
        have hPlace : x = start := hStart
        omega
      · rw [List.getElem?_append_right (hBytes ▸ hLater), hBytes]
          at hByte
        rw [List.getElem?_append_right (hCode ▸ hLater), hCode]
        refine ih hLined hByte ?_
        intro x opcode j hIn
        have hOther :=
          hOutside x opcode j (List.mem_cons_of_mem l hIn)
        omega

end Resolved

------------------------------------------------------------
-- Failures
------------------------------------------------------------

/- Whether an error is about a jump that has no target. -/
def ClassFileError.isJump : ClassFileError → Bool
  | .unboundLabel _ _ => true
  | .branchOutOfRange _ _ => true
  | _ => false

theorem Line.isJump_of_resolve
    {method : String}
    {labels : Array LabelState}
    {l : Line}
    {e : ClassFileError}
    (hError : l.resolve method labels = .error e) :
    e.isJump = true := by
  cases l with
  | instruction i => cases hError
  | jump x opcode k =>
      unfold Line.resolve at hError
      dsimp only at hError
      split at hError
      · cases hError
        rfl
      · split at hError
        · cases hError
        · cases hError
          rfl

namespace Pooling

variable {α : Type}

/- Work on the pool that never fails for the sake of a jump. -/
abbrev Jumpless
    (x : Pooling α) : Prop :=
  FailsWith (fun e => e.isJump = false) x

theorem jumpless_add
    (c : Constant) :
    Jumpless (add c) := by
  refine FailsWith.get.bind fun p => ?_
  split
  · exact .pure _
  · split
    · exact .throw rfl
    · exact fun _ _ hFails => nomatch hFails

theorem jumpless_text
    (s : String) :
    Jumpless (text s) := by
  unfold text
  dsimp only
  split
  · exact .throw rfl
  · exact jumpless_add _

theorem jumpless_classRef
    (name : String) :
    Jumpless (classRef name) :=
  (jumpless_text name).bind fun _ => jumpless_add _

end Pooling

namespace Frame

theorem jumpless_encodeTypes
    (vs : List VType) :
    Pooling.Jumpless (encodeTypes vs) := by
  refine (FailsWith.mapM vs fun v => ?_).bind fun _ => .pure _
  cases v with
  | object name =>
      exact (Pooling.jumpless_classRef name).bind fun _ => .pure _
  | _ => exact .pure _

theorem jumpless_encodeTable
    (fs : List Frame) :
    Pooling.Jumpless (encodeTable fs) := by
  have hFrom : ∀ (fs : List Frame) (previous : Option UInt16),
      Pooling.Jumpless (encodeFrom previous fs) := by
    intro fs
    induction fs with
    | nil => exact fun _ => .pure _
    | cons f fs ih =>
        intro previous
        have hOne : ∀ delta, Pooling.Jumpless (f.encode delta) :=
          fun _ => (jumpless_encodeTypes _).bind fun _ =>
            (jumpless_encodeTypes _).bind fun _ => .pure _
        exact (hOne _).bind fun _ => (ih _).bind fun _ => .pure _
  exact (hFrom fs none).bind fun _ => .pure _

end Frame

namespace MethodDraft

theorem jumpless_signatureAttribute
    (signature : String) :
    Pooling.Jumpless (signatureAttribute signature) :=
  (Pooling.jumpless_text _).bind fun _ =>
    (Pooling.jumpless_text _).bind fun _ => .pure _

theorem jumpless_localEntries
    (size : Nat)
    (vs : List LocalVar) :
    Pooling.Jumpless (localEntries size vs) := by
  have hOne : ∀ start v,
      Pooling.Jumpless (localEntry size start v) := by
    intro start v
    refine (Pooling.jumpless_text _).bind fun _ => ?_
    split
    · exact .throw rfl
    · exact (Pooling.jumpless_text _).bind fun _ => .pure _
  induction vs with
  | nil => exact .pure _
  | cons v vs ih =>
      unfold localEntries
      split
      · split
        · exact (hOne _ _).bind fun _ => ih.bind fun _ => .pure _
        · exact ih
      · exact ih

/- The tables and names of a method have nothing to do with it. -/
theorem jumpless_member
    (m : MethodDraft)
    (code : List UInt8) :
    Pooling.Jumpless (m.member code) := by
  have hLocals : Pooling.Jumpless (m.localTable code.length) := by
    refine (jumpless_localEntries _ _).bind fun entries => ?_
    split
    · exact .pure _
    · exact (Pooling.jumpless_text _).bind fun _ => .pure _
  have hFrames : Pooling.Jumpless m.frameTable := by
    unfold frameTable
    split
    · exact .pure _
    · split
      · exact .pure _
      · exact (Frame.jumpless_encodeTable _).bind fun _ =>
          (Pooling.jumpless_text _).bind fun _ => .pure _
  exact hLocals.bind fun _ => hFrames.bind fun _ =>
    (Pooling.jumpless_text _).bind fun _ =>
      (FailsWith.mapM _ jumpless_signatureAttribute).bind fun _ =>
        (Pooling.jumpless_text _).bind fun _ =>
          (Pooling.jumpless_text _).bind fun _ => .pure _

variable {m : MethodDraft}

/- Only the lines of a draft can fail for the sake of a jump. -/
theorem fails_finish
    {e : ClassFileError}
    (hFault : m.fault = none)
    (hJump : e.isJump = true) :
    Fails finish m e ↔ m.resolve = .error e := by
  have hGet : outcomeOf (get : Emitter MethodDraft) m =
      (.ok m, m) := rfl
  unfold Fails finish
  rw [outcomeOf_bind, hGet]
  dsimp only
  rw [hFault]
  cases hResolve : m.resolve with
  | error e' =>
      change Except.error e' = .error e ↔ _
      simp
  | ok is =>
      dsimp only
      refine iff_of_false (fun hFails => ?_) nofun
      split at hFails
      case isTrue =>
          cases hFails
          cases hJump
      case isFalse =>
          have hOther : e.isJump = false :=
            m.jumpless_member _ m.pool e hFails
          rw [hJump] at hOther
          cases hOther

/-
  A draft without a fault cannot be finished for the sake of a
  jump exactly if the label of one is not where it can reach.
-/
theorem fails_finish_iff
    (hFault : m.fault = none) :
    (∃ e, Fails finish m e ∧ e.isJump = true) ↔
      ∃ x opcode l, Line.jump x opcode l ∈ m.lines.toList ∧
        ∀ t, (m.labelAt l).offset = some t → ¬ InReach x t := by
  constructor
  · rintro ⟨e, hFails, hJump⟩
    have hResolve := (fails_finish hFault hJump).mp hFails
    rcases exists_of_mapM_error hResolve with ⟨line, hIn, hLine⟩
    rcases Line.resolve_error_iff.mp ⟨e, hLine⟩ with
      ⟨x, opcode, l, rfl, hFar⟩
    exact ⟨x, opcode, l, hIn, hFar⟩
  · rintro ⟨x, opcode, l, hIn, hFar⟩
    rcases Line.resolve_error_iff.mpr ⟨x, opcode, l, rfl, hFar⟩ with
      ⟨e, hLine⟩
    cases hResolve : m.resolve with
    | ok is =>
        rcases exists_ok_of_mapM hResolve hIn with ⟨i, -, hOk⟩
        rw [hLine] at hOk
        cases hOk
    | error e' =>
        rcases exists_of_mapM_error hResolve with ⟨line, -, hError⟩
        have hJump := Line.isJump_of_resolve hError
        exact ⟨e', (fails_finish hFault hJump).mpr hResolve, hJump⟩

end MethodDraft

------------------------------------------------------------
-- Patched Code
------------------------------------------------------------

/- A jump that has its distance goes to its label. -/
theorem Line.target?_of_resolve
    {method : String}
    {labels : Array LabelState}
    {x : Nat}
    {opcode : Opcode}
    {l : Label}
    {i : Instruction}
    (hBranch : opcode.isBranch = true)
    (hLine : (Line.jump x opcode l).resolve method labels = .ok i) :
    ∃ t, (labels.getD l.index {}).offset = some t ∧
      i.offset = x ∧ i.opcode = opcode ∧
      i.target? = some (t : Int) := by
  rcases Line.resolve_jump_iff.mp hLine with
    ⟨t, hBound, ⟨hLow, hHigh⟩, rfl⟩
  refine ⟨t, hBound, rfl, rfl, ?_⟩
  have hSome : ∃ y, Instruction.target? {
      offset := x, opcode
      operands := be16 (Int16.ofInt ((t : Int) - x)).toUInt16 } =
        some y := by
    unfold Instruction.target?
    rw [if_pos hBranch, Instruction.word?_be16 []
      (List.append_nil _).symm]
    exact ⟨_, rfl⟩
  rcases hSome with ⟨y, hTarget⟩
  rw [hTarget, target?_of_distance hLow hHigh hTarget]
  congr 1
  omega

/-
  The code of a method whose steps were taken from its start.
  Its branches are the jumps that were taken, where they were
  taken, and each goes to where its label was bound; all bytes
  but those of the distances are those that were written, and
  that from the moment they were.
-/
structure Patched
    (steps : List Step)
    (m : MethodDraft)
    (code : List UInt8)
    (is : List Instruction) : Prop where
  decoded : decodeCode code = .ok is
  jumps : ∀ x opcode l, Step.JumpsAt steps m x opcode l →
    ∃ t, Step.BindsAt steps m l t ∧
      (∀ t', Step.BindsAt steps m l t' → t' = t) ∧
      ∃ i ∈ is, i.offset = x ∧ i.opcode = opcode ∧
        i.target? = some (t : Int)
  branches : ∀ i ∈ is, i.opcode.isBranch = true →
    ∃ l, Step.JumpsAt steps m i.offset i.opcode l
  length : code.length = (Step.runAll steps m).offset
  bytes : ∀ before after, steps = before ++ after →
    ∀ (k : Nat) (b : UInt8),
      (Step.runAll before m).written[k]? = some b →
      (∀ x opcode l, Step.JumpsAt steps m x opcode l →
        k ≠ x + 1 ∧ k ≠ x + 2) →
      code[k]? = some b

section Patching

variable {m : MethodDraft} {steps : List Step}

/- The jumps that were taken, from the start of a method. -/
theorem MethodDraft.Bare.jump_mem_iff
    {x : Nat}
    {opcode : Opcode}
    {l : Label}
    (hBare : m.Bare)
    (steps : List Step) :
    Line.jump x opcode l ∈ (Step.runAll steps m).lines.toList ↔
      Step.JumpsAt steps m x opcode l := by
  rw [Step.jump_mem_runAll, hBare.lines]
  exact or_iff_right (List.not_mem_nil)

theorem MethodDraft.Bare.offset_labelAt_iff
    {l : Label}
    {x : Nat}
    (hBare : m.Bare)
    (hFault : (Step.runAll steps m).fault = none) :
    ((Step.runAll steps m).labelAt l).offset = some x ↔
      Step.BindsAt steps m l x := by
  rw [Step.offset_labelAt_runAll steps hFault, hBare.labelAt]
  exact or_iff_right nofun

/- All lines of a draft are one behind another from its start. -/
theorem MethodDraft.Bare.lined
    (hBare : m.Bare)
    (steps : List Step) :
    Lined 0 (Step.runAll steps m).lines.toList
      (Step.runAll steps m).offset := by
  rcases Step.adds_runAll steps m with ⟨ls, hAdds⟩
  have hLined := hAdds.lined
  rw [hBare.offset] at hLined
  rw [hAdds.lines, hBare.lines]
  exact hLined

/- A fit line that branches is a jump, also when it is resolved. -/
theorem Lined.fits
    {start stop : Nat}
    {ls : List Line}
    {l : Line}
    (hLined : Lined start ls stop)
    (hIn : l ∈ ls) :
    l.Fits := by
  induction ls generalizing start with
  | nil => cases hIn
  | cons k ls ih =>
      rcases hLined with ⟨-, hFits, hRest⟩
      rcases List.mem_cons.mp hIn with rfl | hLater
      · exact hFits
      · exact ih hRest hLater

theorem patched_of_resolve
    {is : List Instruction}
    (hBare : m.Bare)
    (hFault : (Step.runAll steps m).fault = none)
    (hResolve : (Step.runAll steps m).resolve = .ok is) :
    Patched steps m (is.flatMap Instruction.encode) is := by
  have hLined := hBare.lined steps
  have hLines := mapM_eq_ok.mp hResolve
  rcases laidOut_of_lined hLined hLines with ⟨hLaid, hLength⟩
  refine ⟨hLaid.decodeCode_encode, ?_, ?_, ?_, ?_⟩
  · intro x opcode l hJump
    have hIn := (hBare.jump_mem_iff steps).mpr hJump
    rcases exists_ok_of_mapM hResolve hIn with ⟨i, hCode, hLine⟩
    rcases Line.target?_of_resolve (hLined.fits hIn) hLine with
      ⟨t, hBound, hThere⟩
    have hBinds := fun y =>
      hBare.offset_labelAt_iff (l := l) (x := y) hFault
    refine ⟨t, (hBinds t).mp hBound, ?_, i, hCode, hThere⟩
    intro t' hOther
    have hSame := (hBinds t').mpr hOther
    exact Option.some.inj (hSame.symm.trans hBound)
  · intro i hCode hBranch
    rcases exists_arg_of_mapM hResolve hCode with ⟨line, hIn, hLine⟩
    cases line with
    | instruction j =>
        cases hLine
        rw [(hLined.fits hIn).2] at hBranch
        cases hBranch
    | jump x opcode l =>
        rcases Line.resolve_jump_iff.mp hLine with ⟨t, -, -, rfl⟩
        exact ⟨l, (hBare.jump_mem_iff steps).mp hIn⟩
  · rw [← hLength, Nat.zero_add]
  · rintro before after rfl k b hByte hOutside
    rcases Step.adds_runAll after (Step.runAll before m) with
      ⟨ls, hAdds⟩
    rw [← Step.runAll_append] at hAdds
    refine getElem?_encode_of_lined hLined hLines
      (k := k) (b := b) ?_ ?_
    · have hWritten := hAdds.written
      have hFirst : k < (Step.runAll before m).written.length :=
        (List.getElem?_eq_some_iff.mp hByte).1
      change (Step.runAll (before ++ after) m).written[k]? = some b
      rw [hWritten, List.getElem?_append_left hFirst]
      exact hByte
    · intro x opcode l hIn
      have hJump := (hBare.jump_mem_iff _).mp hIn
      rw [Nat.zero_add]
      exact hOutside x opcode l hJump

end Patching

/- An instruction that was written is in the finished code. -/
theorem ClassDraft.mem_code_of_finish
    {access : UInt16}
    {name : String}
    {signature : MethodSig}
    {paramNames : List String}
    {c : ClassDraft}
    {m m' : MethodDraft}
    {i : Instruction}
    {member : Member}
    {steps : List Step}
    (hIndexed : c.pool.Indexed)
    (hMethod : c.method access name signature paramNames = .ok m)
    (hIn : Line.instruction i ∈ (Step.runAll steps m).lines.toList)
    (hFinish : Yields MethodDraft.finish (Step.runAll steps m)
      member m') :
    ∃ (is : List Instruction) (body : CodeAttribute)
      (codeName : UInt16) (rest : List Attribute),
      member.attributes =
        { name := codeName, info := body.encode } :: rest ∧
      m'.pool.textAt? codeName = some "Code" ∧
      decodeCode body.code = .ok is ∧ i ∈ is := by
  rcases MethodDraft.finish_body
    (indexed_runAll hIndexed hMethod steps) hFinish with
    ⟨is, body, codeName, rest, hResolve, hCode, -, -, hAttributes,
      hName⟩
  refine ⟨is, body, codeName, rest, hAttributes, hName, ?_, ?_⟩
  · have hLined := (bare_method hMethod).lined steps
    rw [hCode]
    exact (laidOut_of_lined hLined
      (mapM_eq_ok.mp hResolve)).1.decodeCode_encode
  · rcases exists_ok_of_mapM hResolve hIn with ⟨j, hMade, hLine⟩
    cases hLine
    exact hMade

/-
  A method of a class is made by steps.  If it can be finished,
  its code has each jump go where its label was bound, and is
  otherwise as it was written.  If no fault was kept, it fails
  for the sake of a jump exactly if a label that was jumped to
  was never bound, or was bound out of reach.
-/
theorem ClassDraft.jumps_patched
    {version access flags : UInt16}
    {className superName name : String}
    {signature : MethodSig}
    {paramNames : List String}
    {c₀ c : ClassDraft}
    {m : MethodDraft}
    (hStart : start version access className superName = .ok c₀)
    (hBefore : Relation.ReflTransGen Access c₀ c)
    (hMethod : c.method flags name signature paramNames = .ok m)
    (steps : List Step) :
    (∀ member m',
      Yields MethodDraft.finish (Step.runAll steps m) member m' →
      ∃ (is : List Instruction) (body : CodeAttribute)
        (codeName : UInt16) (rest : List Attribute),
        member.attributes =
          { name := codeName, info := body.encode } :: rest ∧
        m'.pool.textAt? codeName = some "Code" ∧
        Patched steps m body.code is) ∧
    ((Step.runAll steps m).fault = none →
      ((∃ e, Fails MethodDraft.finish (Step.runAll steps m) e ∧
          e.isJump = true) ↔
        ∃ x opcode l, Step.JumpsAt steps m x opcode l ∧
          ((¬ ∃ t, Step.BindsAt steps m l t) ∨
            ∃ t, Step.BindsAt steps m l t ∧ ¬ InReach x t))) := by
  have hBare := bare_method hMethod
  refine ⟨?_, ?_⟩
  · intro member m' hFinish
    have hIndexed :=
      indexed_of_accesses hBefore (indexed_of_start hStart)
    rcases MethodDraft.finish_body
      (indexed_runAll hIndexed hMethod steps) hFinish with
      ⟨is, body, codeName, rest, hResolve, hCode, -, -, hAttributes,
        hName⟩
    refine ⟨is, body, codeName, rest, hAttributes, hName, ?_⟩
    rw [hCode]
    exact patched_of_resolve hBare (fault_of_finish hFinish) hResolve
  · intro hFault
    rw [MethodDraft.fails_finish_iff hFault]
    have hBinds := fun l y =>
      hBare.offset_labelAt_iff (l := l) (x := y) hFault
    simp only [hBare.jump_mem_iff, hBinds]
    refine exists_congr fun x => exists_congr fun opcode =>
      exists_congr fun l => and_congr_right fun _ => ?_
    constructor
    · intro hFar
      by_cases hBound : ∃ t, Step.BindsAt steps m l t
      · rcases hBound with ⟨t, hBound⟩
        exact Or.inr ⟨t, hBound, hFar t hBound⟩
      · exact Or.inl hBound
    · rintro (hUnbound | ⟨t, hBound, hFar⟩) t' hBound'
      · exact absurd ⟨t', hBound'⟩ hUnbound
      · have hSame := ((hBinds l t').mpr hBound').symm.trans
          ((hBinds l t).mpr hBound)
        cases hSame
        exact hFar

------------------------------------------------------------
-- Samples
------------------------------------------------------------

/- A jump back to the start, and one over it to the end. -/
def crossedJumps : List Step :=
  [.newLabel,
    .newLabel,
    .bind ⟨0⟩,
    .aconstNull,
    .ifnull ⟨1⟩,
    .goto ⟨0⟩,
    .bind ⟨1⟩,
    .returnValue (.primitive .void)]

/- A jump to a label that nothing binds. -/
def danglingJump : List Step :=
  [.newLabel, .goto ⟨0⟩]

/- The jumps of the first meet their labels, the other does not. -/
theorem crossedJumps_patched :
    ∃ (c : ClassDraft) (m m' : MethodDraft) (member : Member)
      (is : List Instruction) (body : CodeAttribute)
      (codeName : UInt16) (rest : List Attribute),
      ClassDraft.start 49 1 "A" "java/lang/Object" = .ok c ∧
      c.method 8 "m" plainMethod [] = .ok m ∧
      Yields MethodDraft.finish (Step.runAll crossedJumps m)
        member m' ∧
      member.attributes =
        { name := codeName, info := body.encode } :: rest ∧
      Step.JumpsAt crossedJumps m 1 .ifnull ⟨1⟩ ∧
      Step.JumpsAt crossedJumps m 4 .goto ⟨0⟩ ∧
      Patched crossedJumps m body.code is ∧
      ∃ e, Fails MethodDraft.finish (Step.runAll danglingJump m) e ∧
        e.isJump = true := by
  have hDraft : ∃ c m,
      ClassDraft.start 49 1 "A" "java/lang/Object" = .ok c ∧
      c.method 8 "m" plainMethod [] = .ok m ∧
      Step.JumpsAt crossedJumps m 1 .ifnull ⟨1⟩ ∧
      Step.JumpsAt crossedJumps m 4 .goto ⟨0⟩ ∧
      Step.JumpsAt danglingJump m 0 .goto ⟨0⟩ ∧
      (Step.runAll danglingJump m).fault.isNone = true ∧
      (outcomeOf MethodDraft.finish
        (Step.runAll crossedJumps m)).1.isOk = true :=
    ⟨_, _, rfl, rfl, by decide +kernel⟩
  rcases hDraft with ⟨c, m, hStart, hMethod, hDown, hUp, hDangling,
    hFault, hOk⟩
  rcases exists_yields_of_isOk hOk with ⟨member, m', hFinish⟩
  rcases (ClassDraft.jumps_patched hStart .refl hMethod
    crossedJumps).1 member m' hFinish with
    ⟨is, body, codeName, rest, hAttributes, -, hPatched⟩
  have hFails := (ClassDraft.jumps_patched hStart .refl hMethod
    danglingJump).2 (Option.isNone_iff_eq_none.mp hFault)
  refine ⟨c, m, m', member, is, body, codeName, rest, hStart, hMethod,
    hFinish, hAttributes, hDown, hUp, hPatched,
    hFails.mpr ⟨0, .goto, ⟨0⟩, hDangling, Or.inl ?_⟩⟩
  rintro ⟨t, hBinds⟩
  rcases hBinds with ⟨⟨⟩, -⟩ | ⟨⟨⟩, -⟩ | hNone
  exact hNone

end Stratagem

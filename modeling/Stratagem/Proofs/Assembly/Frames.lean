import Mathlib.Data.List.Perm.Subperm
import Stratagem.Proofs.Assembly.Fillers
import Stratagem.Proofs.Assembly.FrameTable

/-
  The frames of finished methods.

  A finished method with jumps lists a frame for each offset
  that is jumped to, in order, and no other.  The frame says
  what was recorded for a label there.  Only if a constructor
  was called on what is unusable it may say less, for then
  fillers were taken for objects.

  Key definitions include:
    * `Framed`

  Main declarations:
    * `MethodDraft.rising_frames`
    * `MethodDraft.offset_mem_frames`
    * `Step.apart_of_jumpsAt`
    * `ClassDraft.frames_decoded`
-/

namespace Stratagem

open Jvm Emitter

------------------------------------------------------------
-- Frames in Order
------------------------------------------------------------

namespace MethodDraft

section Rows

variable {fs : List Frame}

/- Frames in order rise when repeated offsets are left out. -/
theorem rising_dropRepeats
    (hSorted : fs.Pairwise fun f g => f.offset ≤ g.offset) :
    ((dropRepeats fs).map Frame.offset).Pairwise (· < ·) := by
  induction fs using dropRepeats.induct with
  | case1 g h rest hSame ih =>
      rw [dropRepeats, if_pos hSame]
      exact ih (hSorted.sublist
        ((List.sublist_cons_self h rest).cons_cons g))
  | case2 g h rest hOther ih =>
      rw [List.pairwise_cons] at hSorted
      rcases hSorted with ⟨hFirst, hRest⟩
      rw [dropRepeats, if_neg hOther, List.map_cons,
        List.pairwise_cons]
      refine ⟨fun x hIn => ?_, ih hRest⟩
      rcases List.mem_map.mp hIn with ⟨f, hKept, rfl⟩
      have hLess : g.offset < h.offset :=
        UInt16.lt_of_le_of_ne (hFirst h List.mem_cons_self) hOther
      rcases List.mem_cons.mp (mem_dropRepeats hKept) with rfl | hLater
      · exact hLess
      · exact UInt16.lt_of_lt_of_le hLess
          ((List.pairwise_cons.mp hRest).1 f hLater)
  | case3 fs hShort =>
      rw [dropRepeats.eq_2 _ hShort]
      cases fs with
      | nil => exact .nil
      | cons f fs =>
          cases fs with
          | nil => exact List.pairwise_singleton _ _
          | cons g fs => exact absurd rfl (hShort f g fs)

/- No offset is lost. -/
theorem offset_mem_dropRepeats
    {x : UInt16} :
    x ∈ (dropRepeats fs).map Frame.offset ↔
      x ∈ fs.map Frame.offset := by
  induction fs using dropRepeats.induct with
  | case1 g h rest hSame ih =>
      rw [dropRepeats, if_pos hSame, ih]
      simp [hSame]
  | case2 g h rest hOther ih =>
      rw [dropRepeats, if_neg hOther, List.map_cons, List.mem_cons,
        ih, ← List.mem_cons, ← List.map_cons]
  | case3 fs hShort => rw [dropRepeats.eq_2 _ hShort]

end Rows

variable {m : MethodDraft} {f : Frame}

/- The frames are those of the labels of the draft. -/
theorem mem_labelFrames :
    f ∈ m.labels.toList.filterMap frameAt? ↔
      ∃ l, frameAt? (m.labelAt l) = some f := by
  rw [List.mem_filterMap]
  constructor
  · rintro ⟨state, hState, hFrame⟩
    rcases List.getElem?_of_mem hState with ⟨i, hAt⟩
    rw [Array.getElem?_toList] at hAt
    refine ⟨⟨i⟩, ?_⟩
    rw [labelAt, Array.getD_eq_getD_getElem?, hAt]
    exact hFrame
  · rintro ⟨l, hFrame⟩
    cases hLabel : m.labels[l.index]? with
    | none =>
        rw [labelAt, Array.getD_eq_getD_getElem?, hLabel] at hFrame
        cases hFrame
    | some state =>
        rw [labelAt, Array.getD_eq_getD_getElem?, hLabel] at hFrame
        exact ⟨state, Array.mem_toList_iff.mpr
          (Array.mem_of_getElem? hLabel), hFrame⟩

/- Every frame is that of a label. -/
theorem label_of_mem_frames
    (hIn : f ∈ m.frames) :
    ∃ l, frameAt? (m.labelAt l) = some f := by
  have hSorted := mem_dropRepeats hIn
  rw [List.mem_mergeSort] at hSorted
  exact mem_labelFrames.mp hSorted

/- There is a frame where there is that of a label. -/
theorem offset_mem_frames
    {x : UInt16} :
    x ∈ m.frames.map Frame.offset ↔
      ∃ l f, frameAt? (m.labelAt l) = some f ∧ f.offset = x := by
  unfold frames
  rw [offset_mem_dropRepeats, List.mem_map]
  simp only [List.mem_mergeSort, mem_labelFrames]
  constructor
  · rintro ⟨f, ⟨l, hFrame⟩, hOffset⟩
    exact ⟨l, f, hFrame, hOffset⟩
  · rintro ⟨l, f, hFrame, hOffset⟩
    exact ⟨f, ⟨l, hFrame⟩, hOffset⟩

theorem rising_frames
    (m : MethodDraft) :
    (m.frames.map Frame.offset).Pairwise (· < ·) := by
  refine rising_dropRepeats (List.Pairwise.imp of_decide_eq_true
    (List.pairwise_mergeSort ?_ ?_ _))
  · intro f g h hFirst hNext
    simp only [decide_eq_true_eq] at hFirst hNext ⊢
    exact UInt16.le_trans hFirst hNext
  · intro f g
    simp only [Bool.or_eq_true, decide_eq_true_eq]
    exact UInt16.le_total _ _

/- One offset that has no frame makes their number fit. -/
theorem length_frames_le
    (gap : Nat)
    (hGap : gap ≤ 65535)
    (hNone : ∀ x ∈ m.frames.map Frame.offset, x.toNat ≠ gap) :
    m.frames.length ≤ 65535 := by
  have hDistinct :
      ((m.frames.map Frame.offset).map UInt16.toNat).Nodup := by
    rw [List.Nodup, List.pairwise_map]
    refine m.rising_frames.imp fun hLess => ?_
    exact Nat.ne_of_lt (UInt16.lt_iff_toNat_lt.mp hLess)
  have hWithin : (m.frames.map Frame.offset).map UInt16.toNat ⊆
      (List.range 65536).erase gap := by
    intro n hn
    rcases List.mem_map.mp hn with ⟨x, hx, rfl⟩
    exact (List.mem_erase_of_ne (hNone x hx)).mpr
      (List.mem_range.mpr x.toNat_lt)
  have hLength := (List.subperm_of_subset hDistinct hWithin).length_le
  rw [List.length_erase_of_mem
    (List.mem_range.mpr (Nat.lt_succ_of_le hGap)), List.length_range,
    List.length_map, List.length_map] at hLength
  exact hLength

end MethodDraft

------------------------------------------------------------
-- Targets of Jumps
------------------------------------------------------------

namespace Step

open MethodDraft

variable {m : MethodDraft} {steps : List Step} {x t : Nat}
variable {opcode : Opcode} {k l : Label}

theorem offset_le_apply
    (s : Step)
    (m : MethodDraft) :
    m.offset ≤ (s.apply m).offset := by
  rcases s.adds_apply m with ⟨ls, hAdds⟩
  rw [← hAdds.lined.length_bytes]
  exact Nat.le_add_right _ _

theorem offset_le_runAll
    (steps : List Step)
    (m : MethodDraft) :
    m.offset ≤ (runAll steps m).offset := by
  rcases adds_runAll steps m with ⟨ls, hAdds⟩
  rw [← hAdds.lined.length_bytes]
  exact Nat.le_add_right _ _

/- What happens at an offset is between the start and the end. -/
theorem Sometime.between
    {P : MethodDraft → Step → Prop}
    (hPlace : ∀ m s, P m s → m.offset = x)
    (hSome : Sometime P steps m) :
    m.offset ≤ x ∧ x ≤ (runAll steps m).offset := by
  induction steps generalizing m with
  | nil => exact absurd hSome id
  | cons s steps ih =>
      rcases hSome with hHere | hLater
      · rw [← hPlace m s hHere]
        exact ⟨Nat.le_refl _, offset_le_runAll (s :: steps) m⟩
      · rcases ih hLater with ⟨hLow, hHigh⟩
        exact ⟨Nat.le_trans (s.offset_le_apply m) hLow, hHigh⟩

theorem JumpsAt.between
    (hJump : JumpsAt steps m x opcode l) :
    m.offset ≤ x ∧ x ≤ (runAll steps m).offset :=
  Sometime.between (fun _ _ h => h.1) hJump

theorem BindsAt.between
    (hBinds : BindsAt steps m l x) :
    m.offset ≤ x ∧ x ≤ (runAll steps m).offset :=
  Sometime.between (fun _ _ h => h.2.2) hBinds

/- A jump takes three bytes. -/
theorem offset_apply_jump
    {s : Step}
    (hJump : s.jump? = some (opcode, l))
    (m : MethodDraft) :
    (s.apply m).offset = m.offset + 3 :=
  (adds_jump hJump).1.lined.2.2.symm

theorem JumpsAt.add_three_le
    (hJump : JumpsAt steps m x opcode l) :
    x + 3 ≤ (runAll steps m).offset := by
  induction steps generalizing m with
  | nil => exact absurd hJump id
  | cons s steps ih =>
      rcases hJump with ⟨rfl, hHere⟩ | hLater
      · rw [← offset_apply_jump hHere m]
        exact offset_le_runAll steps (s.apply m)
      · exact ih hLater

/- No label is bound within a jump. -/
theorem apart_of_jumpsAt
    (hJump : JumpsAt steps m x opcode k)
    (hBinds : BindsAt steps m l t) :
    t ≤ x ∨ x + 3 ≤ t := by
  induction steps generalizing m with
  | nil => exact absurd hJump id
  | cons s steps ih =>
      rcases hJump with ⟨rfl, hJump⟩ | hJump
      · rcases hBinds with ⟨-, -, rfl⟩ | hBinds
        · exact Or.inl (Nat.le_refl _)
        · rw [← offset_apply_jump hJump m]
          exact Or.inr (BindsAt.between hBinds).1
      · rcases hBinds with ⟨-, -, rfl⟩ | hBinds
        · exact Or.inl (Nat.le_trans (s.offset_le_apply m)
            (JumpsAt.between hJump).1)
        · exact ih hJump hBinds

end Step

------------------------------------------------------------
-- Frames of Finished Methods
------------------------------------------------------------

namespace MethodDraft

variable {m : MethodDraft} {p q : ConstantPool}
variable {table : List Attribute}

/- What frames say of recorded types fits into a table. -/
theorem writable_frames
    (hFault : m.fault = none)
    (hShort : m.offset ≤ 65535)
    (hLaid : m.Laid)
    (hRecorded : m.Recorded) :
    ∀ f ∈ m.frames, f.Writable := by
  intro f hIn
  rcases label_of_mem_frames hIn with ⟨l, hFrame⟩
  rcases frameAt?_eq_some.mp hFrame with ⟨-, x, e, -, hEntry, rfl⟩
  rcases hRecorded.entries l e hEntry with ⟨hWritable, hLow⟩
  have hFits : e.slots.size ≤ m.slots.size :=
    entry_le hLaid l.index hEntry
  have hSmall : m.slots.size ≤ 65535 := hLaid.small
  refine ⟨?_, ?_, fun v hv => ?_⟩
  · rw [Array.length_toList]
    exact Nat.le_trans hFits hSmall
  · rw [List.length_reverse]
    exact Nat.le_trans (hLow hFault) hShort
  · rcases List.mem_append.mp hv with hSlot | hStack
    · exact hWritable.slots v (Array.mem_toList_iff.mp hSlot)
    · exact hWritable.stack v (List.mem_reverse.mp hStack)

/- A draft with frames has a table of them. -/
theorem frameTable_eq
    (hIndexed : p.Indexed)
    (hVersion : frameVersion ≤ m.version)
    (hSome : m.frames ≠ [])
    (hRun : Yields m.frameTable p table q) :
    ∃ name info p₁, table = [{ name, info }] ∧
      q.textAt? name = some "StackMapTable" ∧
      Yields (Frame.encodeTable m.frames) p info p₁ ∧
      p₁.Within q := by
  unfold frameTable at hRun
  rw [if_neg (UInt16.not_lt.mpr hVersion)] at hRun
  split at hRun
  case h_1 hNone => exact absurd hNone hSome
  case h_2 =>
      simp only [yields_bind, yields_pure] at hRun
      rcases hRun with ⟨info, p₁, hInfo, name, _, hName, rfl, rfl⟩
      have hGrown := (Frame.grows_encodeTable _).of_yields hInfo
      exact ⟨name, info, p₁, rfl,
        Pooling.text_textAt? (hGrown.indexed hIndexed) hName, hInfo,
        ((Pooling.grows_text _).of_yields hName).within⟩

/- A table of locals is called so. -/
theorem name_localTable
    {size : Nat}
    (hIndexed : p.Indexed)
    (hRun : Yields (m.localTable size) p table q) :
    ∀ a ∈ table, q.textAt? a.name = some "LocalVariableTable" := by
  unfold localTable at hRun
  rw [yields_bind] at hRun
  rcases hRun with ⟨entries, p₁, hEntries, hRun⟩
  have hGrown := (grows_localEntries size _).of_yields hEntries
  split at hRun
  case h_1 =>
      rcases yields_pure.mp hRun with ⟨rfl, -⟩
      exact nofun
  case h_2 =>
      simp only [yields_bind, yields_pure] at hRun
      rcases hRun with ⟨name, _, hName, rfl, rfl⟩
      intro a ha
      cases List.mem_singleton.mp ha
      exact Pooling.text_textAt? (hGrown.indexed hIndexed) hName

/- A method with a table of locals has none that is too narrow. -/
theorem not_spoilt_of_localTable
    {size : Nat}
    (hRun : Yields (m.localTable size) p table q) :
    ¬ m.Spoilt size := by
  unfold localTable at hRun
  rw [yields_bind] at hRun
  rcases hRun with ⟨entries, _, hEntries, -⟩
  rintro ⟨i, v, start, hLocal, hMisfit, hStart, hEarly⟩
  have hIn : v ∈ m.locals.toList :=
    Array.mem_toList_iff.mpr (Array.mem_of_getElem? hLocal)
  exact not_misfit_of_localEntries hEntries hIn hStart hEarly hMisfit

end MethodDraft

/- A table of frames is the only one behind those of locals. -/
theorem filter_tables
    {p : ConstantPool}
    {locals : List Attribute}
    {a : Attribute}
    (hLocals : ∀ b ∈ locals,
      p.textAt? b.name = some "LocalVariableTable")
    (hFrames : p.textAt? a.name = some "StackMapTable") :
    ((locals ++ [a]).filter fun b =>
      p.textAt? b.name == some "StackMapTable") = [a] := by
  have hNone : (locals.filter fun b =>
      p.textAt? b.name == some "StackMapTable") = [] := by
    rw [List.filter_eq_nil_iff]
    intro b hIn
    rw [hLocals b hIn]
    decide
  rw [List.filter_append, hNone, List.nil_append, List.filter_singleton,
    hFrames]
  rfl

namespace MethodDraft

/- The table of a finished method says what its frames do. -/
theorem decodeTable_of_finish
    {m m' : MethodDraft}
    {member : Member}
    (hIndexed : m.pool.Indexed)
    (hVersion : frameVersion ≤ m.version)
    (hShort : m.offset ≤ 65535)
    (hSome : m.frames ≠ [])
    (hFew : m.frames.length ≤ 65535)
    (hLaid : m.Laid)
    (hRecorded : m.Recorded)
    (hFinish : Yields finish m member m') :
    ∃ (body : CodeAttribute) (codeName : UInt16)
      (rest : List Attribute) (a : Attribute),
      member.attributes =
        { name := codeName, info := body.encode } :: rest ∧
      m'.pool.textAt? codeName = some "Code" ∧
      (body.attributes.filter fun b =>
        m'.pool.textAt? b.name == some "StackMapTable") = [a] ∧
      Frame.decodeTable m'.pool a.info =
        .ok (m.frames.map Frame.checkpoint) := by
  rcases finish_parts hIndexed hFinish with
    ⟨_, body, codeName, rest, ⟨-, -, -, -, hAttributes, hName⟩, -,
      localTable, frameTable, p, q, hTables, hLocals, hFrames,
      hWithin⟩
  have hGrown := (m.grows_localTable _).of_yields hLocals
  have hMore := m.grows_frameTable.of_yields hFrames
  have hIndexed' := hGrown.indexed hIndexed
  rcases frameTable_eq hIndexed' hVersion hSome hFrames with
    ⟨tableName, info, p₁, rfl, hTableName, hTable, hInfo⟩
  refine ⟨body, codeName, rest, { name := tableName, info },
    hAttributes, hName, ?_, ?_⟩
  · rw [hTables]
    exact filter_tables
      (fun b hIn => (hMore.within.trans hWithin).textAt?
        (name_localTable hIndexed hLocals b hIn))
      (hWithin.textAt? hTableName)
  · exact Frame.decodeTable_encodeTable hIndexed' hFew
      (writable_frames (fault_of_finish hFinish) hShort hLaid
        hRecorded)
      m.rising_frames hTable (hInfo.trans hWithin)

end MethodDraft

/- Behind types of two slots there is nothing but fillers. -/
theorem Snapshot.Filled.filled
    {s : Snapshot}
    (hFilled : s.Filled) :
    VType.Filled s.slots.toList := by
  intro i hTwo
  rw [List.getD_eq_getElem?_getD, Array.getElem?_toList] at hTwo ⊢
  cases hSlot : s.slots[i]? with
  | none =>
      rw [hSlot] at hTwo
      cases hTwo
  | some v =>
      rw [hSlot] at hTwo
      rw [hFilled i v hSlot hTwo]
      rfl

theorem ClassDraft.version_method
    {flags : UInt16}
    {name : String}
    {signature : MethodSig}
    {paramNames : List String}
    {c : ClassDraft}
    {m : MethodDraft}
    (hMethod : c.method flags name signature paramNames = .ok m) :
    m.version = c.version := by
  refine method_induct (P := fun _ m => m.version = c.version) hMethod
    ?_ ?_ ?_
  · intro descriptor generic _
    rfl
  · intro m holds _ _ hSame
    exact hSame
  · intro done m name t _ _ hSame
    exact hSame

/-
  What the frames of a method say whose steps were taken from
  its start.  There is one for each offset that is jumped to,
  in order.  It has the stack that was recorded for a label
  there, and the locals too if they have their fillers.  They
  have, unless a constructor was called on what is unusable.
-/
structure Framed
    (steps : List Step)
    (m : MethodDraft)
    (points : List Checkpoint) : Prop where
  rising : (points.map Checkpoint.offset).Pairwise (· < ·)
  targets : ∀ x, x ∈ points.map Checkpoint.offset ↔
    ∃ y opcode l, Step.JumpsAt steps m y opcode l ∧
      Step.BindsAt steps m l x
  known : ∀ c ∈ points, ∃ y opcode l e,
    Step.JumpsAt steps m y opcode l ∧
    Step.BindsAt steps m l c.offset ∧
    ((Step.runAll steps m).labelAt l).entry = some e ∧
    c.stack = e.stack.reverse ∧
    (VType.SameSlots c.slots e.slots.toList ↔
      VType.Filled e.slots.toList) ∧
    (Step.Always Step.Sensible steps m →
      VType.SameSlots c.slots e.slots.toList)
  filled : Step.Always Step.Sensible steps m →
    ∀ l e, ((Step.runAll steps m).labelAt l).entry = some e →
      ((∃ y opcode, Step.JumpsAt steps m y opcode l) ∨
        ∀ v ∈ (Step.runAll steps m).locals, ¬ v.Misfit) →
      e.Filled

section Framing

variable {m : MethodDraft} {steps : List Step}

/- The labels of a method that something jumps to. -/
theorem MethodDraft.Bare.targeted_iff
    (hBare : m.Bare)
    (hMade : Step.Always Step.NamesMade steps m)
    (l : Label) :
    ((Step.runAll steps m).labelAt l).targeted = true ↔
      ∃ y opcode, Step.JumpsAt steps m y opcode l := by
  rw [Step.targeted_runAll hMade, hBare.labelAt]
  exact or_iff_right nofun

/- What is recorded for a label has its fillers. -/
theorem filled_of_padded
    {l : Label}
    {e : Snapshot}
    (hBare : m.Bare)
    (hMade : Step.Always Step.NamesMade steps m)
    (hPadded : (Step.runAll steps m).Padded)
    (hLaid : (Step.runAll steps m).Laid)
    (hFits : ¬ (Step.runAll steps m).Spoilt
      (Step.runAll steps m).offset)
    (hEntry : ((Step.runAll steps m).labelAt l).entry = some e)
    (hUsed : (∃ y opcode, Step.JumpsAt steps m y opcode l) ∨
      ∀ v ∈ (Step.runAll steps m).locals, ¬ v.Misfit) :
    e.Filled := by
  have hSize := entry_le hLaid l.index hEntry
  rcases hPadded.entries l e hEntry with hFilled | hSpoilt
  · exact hFilled.filled hLaid hSize
  · rcases hUsed with hJump | hNone
    · have hTargeted := (hBare.targeted_iff hMade l).mpr hJump
      rw [MethodDraft.limit, if_pos hTargeted] at hSpoilt
      exact absurd hSpoilt hFits
    · rcases hSpoilt with ⟨i, v, start, hLocal, hMisfit, -⟩
      exact absurd hMisfit (hNone v (Array.mem_of_getElem? hLocal))

/- The labels that have a frame, and what it is made of. -/
theorem frameAt?_iff
    {l : Label}
    {f : Frame}
    (hBare : m.Bare)
    (hFault : (Step.runAll steps m).fault = none)
    (hMade : Step.Always Step.NamesMade steps m) :
    MethodDraft.frameAt? ((Step.runAll steps m).labelAt l) =
        some f ↔
      (∃ y opcode, Step.JumpsAt steps m y opcode l) ∧ ∃ x e,
        Step.BindsAt steps m l x ∧
        ((Step.runAll steps m).labelAt l).entry = some e ∧
        f = {
          offset := UInt16.ofNat x
          locals := e.slots.toList
          stack := e.stack.reverse } := by
  rw [MethodDraft.frameAt?_eq_some, hBare.targeted_iff hMade]
  simp only [hBare.offset_labelAt_iff hFault]

/- What the frames say that are made of the labels. -/
theorem framed_frames
    (hBare : m.Bare)
    (hFault : (Step.runAll steps m).fault = none)
    (hShort : (Step.runAll steps m).offset ≤ 65535)
    (hMade : Step.Always Step.NamesMade steps m)
    (hRecorded : (Step.runAll steps m).Recorded)
    (hFilled : Step.Always Step.Sensible steps m →
      ∀ l e, ((Step.runAll steps m).labelAt l).entry = some e →
        ((∃ y opcode, Step.JumpsAt steps m y opcode l) ∨
          ∀ v ∈ (Step.runAll steps m).locals, ¬ v.Misfit) →
        e.Filled) :
    Framed steps m
      ((Step.runAll steps m).frames.map Frame.checkpoint) := by
  have hExact : ∀ {l x}, Step.BindsAt steps m l x →
      (UInt16.ofNat x).toNat = x := by
    intro l x hBinds
    have hEnd := (Step.BindsAt.between hBinds).2
    rw [UInt16.toNat_ofNat', Nat.mod_eq_of_lt (by omega)]
  have hLabel : ∀ f ∈ (Step.runAll steps m).frames,
      ∃ y opcode l e, Step.JumpsAt steps m y opcode l ∧
        Step.BindsAt steps m l f.offset.toNat ∧
        ((Step.runAll steps m).labelAt l).entry = some e ∧
        f.locals = e.slots.toList ∧ f.stack = e.stack.reverse := by
    intro f hIn
    rcases MethodDraft.label_of_mem_frames hIn with ⟨l, hFrame⟩
    rcases (frameAt?_iff hBare hFault hMade).mp hFrame with
      ⟨⟨y, opcode, hJump⟩, x, e, hBinds, hEntry, rfl⟩
    refine ⟨y, opcode, l, e, hJump, ?_, hEntry, rfl, rfl⟩
    dsimp only
    rw [hExact hBinds]
    exact hBinds
  refine ⟨?_, fun x => ⟨?_, ?_⟩, ?_, hFilled⟩
  · have hRising := (Step.runAll steps m).rising_frames
    rw [List.pairwise_map] at hRising
    rw [List.pairwise_map, List.pairwise_map]
    exact hRising.imp fun hLess => UInt16.lt_iff_toNat_lt.mp hLess
  · intro hIn
    rw [List.map_map] at hIn
    rcases List.mem_map.mp hIn with ⟨f, hFrame, rfl⟩
    rcases hLabel f hFrame with ⟨y, opcode, l, e, hJump, hBinds, -⟩
    exact ⟨y, opcode, l, hJump, hBinds⟩
  · rintro ⟨y, opcode, l, hJump, hBinds⟩
    have hTargeted :=
      (hBare.targeted_iff hMade l).mpr ⟨y, opcode, hJump⟩
    rcases Option.isSome_iff_exists.mp
      (hRecorded.targeted l hTargeted) with ⟨e, hEntry⟩
    have hFrame := (frameAt?_iff hBare hFault hMade).mpr
      ⟨⟨y, opcode, hJump⟩, x, e, hBinds, hEntry, rfl⟩
    rcases List.mem_map.mp (MethodDraft.offset_mem_frames.mpr
      ⟨l, _, hFrame, rfl⟩) with ⟨f, hIn, hSame⟩
    rw [List.map_map]
    refine List.mem_map.mpr ⟨f, hIn, ?_⟩
    exact (congrArg UInt16.toNat hSame).trans (hExact hBinds)
  · intro c hIn
    rcases List.mem_map.mp hIn with ⟨f, hFrame, rfl⟩
    rcases hLabel f hFrame with
      ⟨y, opcode, l, e, hJump, hBinds, hEntry, hSlots, hStack⟩
    have hSame := f.slots_checkpoint_iff
    rw [hSlots] at hSame
    exact ⟨y, opcode, l, e, hJump, hBinds, hEntry, hStack, hSame,
      fun hSensible => hSame.mpr (hFilled hSensible l e hEntry
        (Or.inl ⟨y, opcode, hJump⟩)).filled⟩

/- No label is bound within a jump, so frames can be counted. -/
theorem length_frames_of_jumpsAt
    {x : Nat}
    {opcode : Opcode}
    {l : Label}
    (hShort : (Step.runAll steps m).offset ≤ 65535)
    (hJump : Step.JumpsAt steps m x opcode l)
    (hFramed : Framed steps m
      ((Step.runAll steps m).frames.map Frame.checkpoint)) :
    (Step.runAll steps m).frames.length ≤ 65535 := by
  have hEnd := Step.JumpsAt.add_three_le hJump
  refine MethodDraft.length_frames_le (x + 1) (by omega) ?_
  intro o hIn hSame
  rcases List.mem_map.mp hIn with ⟨f, hFrame, rfl⟩
  have hPoint : f.offset.toNat ∈
      ((Step.runAll steps m).frames.map Frame.checkpoint).map
        Checkpoint.offset := by
    rw [List.map_map]
    exact List.mem_map_of_mem hFrame
  rcases (hFramed.targets f.offset.toNat).mp hPoint with
    ⟨_, _, k, -, hBinds⟩
  have hApart := Step.apart_of_jumpsAt hJump hBinds
  omega

end Framing

/-
  A method of a class of a version that lists frames is made by
  steps, with at least one jump.  If it can be finished, it has
  one table of frames, which says what was recorded at the
  targets of its jumps.
-/
theorem ClassDraft.frames_decoded
    {version access flags : UInt16}
    {className superName name : String}
    {signature : MethodSig}
    {paramNames : List String}
    {c₀ c : ClassDraft}
    {m m' : MethodDraft}
    {member : Member}
    {steps : List Step}
    (hStart : start version access className superName = .ok c₀)
    (hBefore : Relation.ReflTransGen Access c₀ c)
    (hMethod : c.method flags name signature paramNames = .ok m)
    (hVersion : MethodDraft.frameVersion ≤ c.version)
    (hMade : Step.Always Step.NamesMade steps m)
    (hJumps : ∃ x opcode l, Step.JumpsAt steps m x opcode l)
    (hFinish : Yields MethodDraft.finish (Step.runAll steps m)
      member m') :
    ∃ (body : CodeAttribute) (codeName : UInt16)
      (rest : List Attribute) (a : Attribute)
      (points : List Checkpoint),
      member.attributes =
        { name := codeName, info := body.encode } :: rest ∧
      m'.pool.textAt? codeName = some "Code" ∧
      (body.attributes.filter fun b =>
        m'.pool.textAt? b.name == some "StackMapTable") = [a] ∧
      Frame.decodeTable m'.pool a.info = .ok points ∧
      Framed steps m points := by
  rcases hJumps with ⟨x, opcode, l, hJump⟩
  have hBare := bare_method hMethod
  have hFault := fault_of_finish hFinish
  have hIndexed := indexed_runAll
    (indexed_of_accesses hBefore (indexed_of_start hStart)) hMethod
    steps
  have hLaid := Step.laid_runAll steps (laid_method hMethod).1
  have hRecorded :=
    Step.recorded_runAll steps (recorded_method hMethod)
  rcases MethodDraft.finish_parts hIndexed hFinish with
    ⟨is, body, _, _, ⟨hResolve, hCode, -⟩, hShort, _, _, _, _, -,
      hLocals, -⟩
  have hPatched := patched_of_resolve hBare hFault hResolve
  have hFits := MethodDraft.not_spoilt_of_localTable hLocals
  rw [← hCode] at hPatched
  rw [hPatched.length] at hShort hFits
  have hFramed := framed_frames hBare hFault hShort hMade hRecorded
    fun hSensible l e hEntry hUsed =>
      filled_of_padded hBare hMade
        (Step.padded_runAll hFault hSensible (laid_method hMethod).1
          (recorded_method hMethod) (padded_method hMethod))
        hLaid hFits hEntry hUsed
  have hSome : (Step.runAll steps m).frames ≠ [] := by
    intro hNone
    rcases hPatched.jumps x opcode l hJump with ⟨t, hBinds, -⟩
    have hIn := (hFramed.targets t).mpr ⟨x, opcode, l, hJump, hBinds⟩
    rw [hNone] at hIn
    cases hIn
  have hHeader := (Step.inherits_runAll steps m).header
  have hSameVersion : (Step.runAll steps m).version = c.version :=
    (congrArg (fun h => h.2.1) hHeader).trans (version_method hMethod)
  rw [← hSameVersion] at hVersion
  rcases MethodDraft.decodeTable_of_finish hIndexed hVersion hShort
      hSome (length_frames_of_jumpsAt hShort hJump hFramed) hLaid
      hRecorded hFinish with
    ⟨body, codeName, rest, a, hAttributes, hName, hOne, hTable⟩
  exact ⟨body, codeName, rest, a, _, hAttributes, hName, hOne, hTable,
    hFramed⟩

------------------------------------------------------------
-- Samples
------------------------------------------------------------

/- A jump over nothing, with a local of two slots in use. -/
def wideLocal : List Step :=
  [.newLabel,
    .newLocal "w" (.primitive .long),
    .lconst 0,
    .store ⟨0⟩,
    .aconstNull,
    .ifnull ⟨0⟩,
    .bind ⟨0⟩,
    .returnValue (.primitive .void)]

/- The same, but a constructor is called on a local of no type. -/
def misusedConstructor : List Step :=
  [.newLabel,
    .newLocal "w" (.primitive .long),
    .lconst 0,
    .store ⟨0⟩,
    .newLocal "v" (.primitive .void),
    .load ⟨1⟩,
    .invoke .special "A" "<init>" "()V",
    .aconstNull,
    .ifnull ⟨0⟩,
    .bind ⟨0⟩,
    .returnValue (.primitive .void)]

/- The frame of the first has the local, with its filler. -/
theorem wideLocal_framed :
    ∃ (c : ClassDraft) (m m' : MethodDraft) (member : Member)
      (body : CodeAttribute) (codeName : UInt16)
      (rest : List Attribute) (a : Attribute)
      (points : List Checkpoint),
      ClassDraft.start 52 1 "A" "java/lang/Object" = .ok c ∧
      c.method 8 "m" plainMethod [] = .ok m ∧
      MethodDraft.frameVersion ≤ c.version ∧
      Step.Always Step.NamesMade wideLocal m ∧
      Step.Always Step.Sensible wideLocal m ∧
      Step.JumpsAt wideLocal m 3 .ifnull ⟨0⟩ ∧
      Yields MethodDraft.finish (Step.runAll wideLocal m) member m' ∧
      member.attributes =
        { name := codeName, info := body.encode } :: rest ∧
      (body.attributes.filter fun b =>
        m'.pool.textAt? b.name == some "StackMapTable") = [a] ∧
      Frame.decodeTable m'.pool a.info = .ok points ∧
      Framed wideLocal m points := by
  have hDraft : ∃ c m,
      ClassDraft.start 52 1 "A" "java/lang/Object" = .ok c ∧
      c.method 8 "m" plainMethod [] = .ok m ∧
      MethodDraft.frameVersion ≤ c.version ∧
      Step.Always Step.NamesMade wideLocal m ∧
      Step.Always Step.Sensible wideLocal m ∧
      Step.JumpsAt wideLocal m 3 .ifnull ⟨0⟩ ∧
      (outcomeOf MethodDraft.finish
        (Step.runAll wideLocal m)).1.isOk = true :=
    ⟨_, _, rfl, rfl, by decide +kernel⟩
  rcases hDraft with ⟨c, m, hStart, hMethod, hVersion, hMade,
    hSensible, hJump, hOk⟩
  rcases exists_yields_of_isOk hOk with ⟨member, m', hFinish⟩
  rcases ClassDraft.frames_decoded hStart .refl hMethod hVersion hMade
      ⟨3, .ifnull, ⟨0⟩, hJump⟩ hFinish with
    ⟨body, codeName, rest, a, points, hAttributes, -, hOne, hTable,
      hFramed⟩
  exact ⟨c, m, m', member, body, codeName, rest, a, points, hStart,
    hMethod, hVersion, hMade, hSensible, hJump, hFinish, hAttributes,
    hOne, hTable, hFramed⟩

/-
  In the second the filler was recorded as an object, and the
  frame says less than what was recorded.
-/
theorem misusedConstructor_unfilled :
    ∃ (c : ClassDraft) (m m' : MethodDraft) (member : Member)
      (body : CodeAttribute) (codeName : UInt16)
      (rest : List Attribute) (a : Attribute)
      (points : List Checkpoint) (e : Snapshot),
      ClassDraft.start 52 1 "A" "java/lang/Object" = .ok c ∧
      c.method 8 "m" plainMethod [] = .ok m ∧
      Step.JumpsAt misusedConstructor m 7 .ifnull ⟨0⟩ ∧
      Step.BindsAt misusedConstructor m ⟨0⟩ 10 ∧
      Yields MethodDraft.finish (Step.runAll misusedConstructor m)
        member m' ∧
      member.attributes =
        { name := codeName, info := body.encode } :: rest ∧
      (body.attributes.filter fun b =>
        m'.pool.textAt? b.name == some "StackMapTable") = [a] ∧
      Frame.decodeTable m'.pool a.info = .ok points ∧
      points.map Checkpoint.slots = [[.long, .top, .object "A"]] ∧
      ((Step.runAll misusedConstructor m).labelAt ⟨0⟩).entry =
        some e ∧
      e.slots = #[.long, .object "A", .object "A"] ∧
      ¬ e.Filled := by
  have hDraft : ∃ c m,
      ClassDraft.start 52 1 "A" "java/lang/Object" = .ok c ∧
      c.method 8 "m" plainMethod [] = .ok m ∧
      ((Step.runAll misusedConstructor m).labelAt ⟨0⟩).entry.map
        Snapshot.slots = some #[.long, .object "A", .object "A"] ∧
      MethodDraft.frameVersion ≤
        (Step.runAll misusedConstructor m).version ∧
      (Step.runAll misusedConstructor m).offset = 11 ∧
      ((Step.runAll misusedConstructor m).frames.map fun f =>
        f.checkpoint.slots) = [[.long, .top, .object "A"]] ∧
      Step.JumpsAt misusedConstructor m 7 .ifnull ⟨0⟩ ∧
      ((Step.runAll misusedConstructor m).labelAt ⟨0⟩).offset =
        some 10 ∧
      (outcomeOf MethodDraft.finish
        (Step.runAll misusedConstructor m)).1.isOk = true :=
    ⟨_, _, rfl, rfl, by decide +kernel⟩
  rcases hDraft with ⟨c, m, hStart, hMethod, hRecorded, hVersion,
    hEnd, hFrames, hJump, hBinds, hOk⟩
  rcases Option.map_eq_some_iff.mp hRecorded with
    ⟨e, hEntry, hSlots⟩
  rcases exists_yields_of_isOk hOk with ⟨member, m', hFinish⟩
  have hLength := congrArg List.length hFrames
  rw [List.length_map] at hLength
  rcases MethodDraft.decodeTable_of_finish
      (ClassDraft.indexed_runAll (ClassDraft.indexed_of_start hStart)
        hMethod misusedConstructor)
      hVersion (hEnd ▸ by decide)
      (List.ne_nil_of_length_eq_add_one hLength) (hLength ▸ by decide)
      (Step.laid_runAll _ (ClassDraft.laid_method hMethod).1)
      (Step.recorded_runAll _ (ClassDraft.recorded_method hMethod))
      hFinish with
    ⟨body, codeName, rest, a, hAttributes, -, hOne, hTable⟩
  have hThere := ((ClassDraft.bare_method hMethod).offset_labelAt_iff
    (fault_of_finish hFinish)).mp hBinds
  refine ⟨c, m, m', member, body, codeName, rest, a, _, e, hStart,
    hMethod, hJump, hThere, hFinish, hAttributes, hOne, hTable, ?_,
    hEntry, hSlots, ?_⟩
  · rw [List.map_map]
    exact hFrames
  · intro hFilled
    have hNext := hFilled 0 .long (by rw [hSlots]; rfl) rfl
    rw [hSlots] at hNext
    cases hNext

end Stratagem

import Mathlib.Data.List.Forall2
import Stratagem.Proofs.Assembly.Discipline
import Stratagem.Proofs.Assembly.Finished

/-
  Measured drafts become code that passes the check.

  When the labels of a draft get their offsets, each line
  becomes an instruction that does what its mark says.  The
  depths of the marks are then those with which the check
  reaches the instructions.

  Key definitions include:
    * `Mark.Becomes`

  Main declarations:
    * `Measured.depthSafe`
    * `Measured.verify`
    * `MethodDraft.finish_spec`
-/

namespace Stratagem

open Jvm

------------------------------------------------------------
-- Instructions of Lines
------------------------------------------------------------

/- The instruction that the line of a mark becomes. -/
structure Mark.Becomes
    (m : MethodDraft)
    (p : ConstantPool)
    (k : Mark)
    (i : Instruction) : Prop where
  offset : i.offset = k.offset
  next : i.next = k.next
  legal : i.Legal
  action : i.action? p = some k.action
  target : ∀ t, i.target? = some t →
    ∃ l x, k.line.label? = some l ∧
      (m.labelAt l).offset = some x ∧ t = (x : Int)

section Becoming

variable {m : MethodDraft} {p : ConstantPool} {k : Mark}
variable {i : Instruction} {ks : List Mark}
variable {is : List Instruction}

/- A distance that fits in two bytes leads to its target. -/
theorem target?_of_distance
    {offset : Nat}
    {opcode : Opcode}
    {distance t : Int}
    (hLow : -32768 ≤ distance)
    (hHigh : distance ≤ 32767)
    (hTarget : Instruction.target? {
      offset, opcode
      operands := be16 (Int16.ofInt distance).toUInt16 } = some t) :
    t = offset + distance := by
  have hWord : Instruction.word? {
      offset, opcode
      operands := be16 (Int16.ofInt distance).toUInt16 } =
        some (Int16.ofInt distance).toUInt16 :=
    Instruction.word?_be16 [] (by simp)
  have hBack : (Int16.ofInt distance).toUInt16.toInt16.toInt =
      distance := by
    rw [Int16.toInt16_toUInt16]
    exact Int16.toInt_ofInt_of_le hLow (by omega)
  unfold Instruction.target? at hTarget
  split at hTarget
  case isTrue =>
      rw [hWord, Option.map_some, hBack] at hTarget
      exact (Option.some.inj hTarget).symm
  case isFalse => cases hTarget

theorem Mark.Tells.becomes
    (hTells : k.Tells p)
    (hLine : k.line.resolve m.name m.labels = .ok i) :
    k.Becomes m p i := by
  cases hTells with
  | instruction hLegal hAction hPlain =>
      cases hLine
      refine ⟨rfl, rfl, hLegal, hAction, ?_⟩
      intro t hTarget
      have hBranch := (Instruction.isTerminator_of_action hAction).2
      rw [hPlain] at hBranch
      unfold Instruction.target? at hTarget
      rw [hBranch] at hTarget
      cases hTarget
  | @jump offset depth c l =>
      simp only [Line.resolve] at hLine
      cases hBound : (m.labels.getD l.index {}).offset with
      | none =>
          rw [hBound] at hLine
          cases hLine
      | some x =>
          rw [hBound] at hLine
          dsimp only at hLine
          split at hLine
          case isFalse => cases hLine
          case isTrue hNear =>
              cases hLine
              refine ⟨rfl, rfl, ?_, ?_, ?_⟩
              · cases c <;> exact ⟨nofun, rfl⟩
              · cases c <;> rfl
              · intro t hTarget
                refine ⟨l, x, rfl, hBound, ?_⟩
                have hThere :=
                  target?_of_distance hNear.1 hNear.2 hTarget
                omega

/- All lines of a draft become instructions. -/
theorem Measured.becomes
    (hMeasured : Measured m ks)
    (hWithin : m.pool.Within p)
    (hResolve : m.resolve = .ok is) :
    List.Forall₂ (Mark.Becomes m p) ks is := by
  have hTells : ∀ k ∈ ks, k.Tells p := by
    intro k hk
    exact (hMeasured.tells k hk).within hWithin
  unfold MethodDraft.resolve at hResolve
  rw [hMeasured.lines] at hResolve
  clear hMeasured
  induction ks generalizing is with
  | nil =>
      cases hResolve
      exact .nil
  | cons k ks ih =>
      rw [List.map_cons, List.mapM_cons] at hResolve
      simp only [ok_bind] at hResolve
      rcases hResolve with ⟨i, hLine, js, hRest, hEnd⟩
      cases hEnd
      rw [List.forall_mem_cons] at hTells
      exact .cons (hTells.1.becomes hLine) (ih hRest hTells.2)

end Becoming

------------------------------------------------------------
-- Places of Instructions
------------------------------------------------------------

section Places

variable {m : MethodDraft} {p : ConstantPool} {ks : List Mark}
variable {is : List Instruction}

theorem laidOut_of_placed
    {start stop : Nat}
    (hPlaced : Placed start ks stop)
    (hBecomes : List.Forall₂ (Mark.Becomes m p) ks is) :
    LaidOut start is := by
  induction hBecomes generalizing start with
  | nil => trivial
  | cons hOne hRest ih =>
      rcases hPlaced with ⟨rfl, hPlaced⟩
      refine ⟨hOne.offset, hOne.legal, ?_⟩
      rw [hOne.next]
      exact ih hPlaced

/- A mark and its instruction have the same position. -/
theorem exists_mark
    {n : Nat}
    {i : Instruction}
    (hBecomes : List.Forall₂ (Mark.Becomes m p) ks is)
    (hAt : is[n]? = some i) :
    ∃ k, ks[n]? = some k ∧ k.Becomes m p i := by
  induction hBecomes generalizing n with
  | nil => cases hAt
  | cons hOne hRest ih =>
      cases n with
      | zero =>
          cases hAt
          exact ⟨_, rfl, hOne⟩
      | succ n => exact ih hAt

theorem mark_of_instruction
    {i : Instruction}
    (hBecomes : List.Forall₂ (Mark.Becomes m p) ks is)
    (hIn : i ∈ is) :
    ∃ k ∈ ks, k.Becomes m p i := by
  rcases List.getElem?_of_mem hIn with ⟨n, hAt⟩
  rcases exists_mark hBecomes hAt with ⟨k, hMark, hSame⟩
  exact ⟨k, List.mem_of_getElem? hMark, hSame⟩

theorem instruction_of_mark
    {k : Mark}
    (hBecomes : List.Forall₂ (Mark.Becomes m p) ks is)
    (hIn : k ∈ ks) :
    ∃ (n : Nat) (i : Instruction), ks[n]? = some k ∧
      is[n]? = some i ∧ k.Becomes m p i := by
  induction hBecomes with
  | nil => cases hIn
  | cons hOne hRest ih =>
      rcases List.mem_cons.mp hIn with rfl | hTail
      · exact ⟨0, _, rfl, rfl, hOne⟩
      · rcases ih hTail with ⟨n, i, hMark, hAt, hSame⟩
        exact ⟨n + 1, i, hMark, hAt, hSame⟩

end Places

------------------------------------------------------------
-- Depths of Instructions
------------------------------------------------------------

section Depths

variable {m : MethodDraft} {p : ConstantPool} {ks : List Mark}
variable {is : List Instruction}

/- Where the depth is known, there is an instruction. -/
theorem Measured.exists_at
    {x depth : Nat}
    (hEnd : m.reachable = false)
    (hBecomes : List.Forall₂ (Mark.Becomes m p) ks is)
    (hAt : m.DepthAt ks x depth) :
    ∃ (n : Nat) (k : Mark) (i : Instruction), ks[n]? = some k ∧
      is[n]? = some i ∧ i.offset = x ∧ k.depth = depth := by
  rcases hAt with ⟨k, hIn, rfl, rfl⟩ | ⟨-, hOpen, -⟩
  · rcases instruction_of_mark hBecomes hIn with
      ⟨n, i, hMark, hPlace, hSame⟩
    exact ⟨n, k, i, hMark, hPlace, hSame.offset, rfl⟩
  · rw [hEnd] at hOpen
    cases hOpen

/- The place that a jump leads to has the depth behind it. -/
theorem Measured.depthAt_target
    {k : Mark}
    {i : Instruction}
    {after : Nat}
    {t : Int}
    (hMeasured : Measured m ks)
    (hSame : k.Becomes m p i)
    (hFlows : k.Flows m ks after)
    (hTarget : i.target? = some t) :
    ∃ x : Nat, t = x ∧ m.DepthAt ks x after := by
  rcases hSame.target t hTarget with ⟨l, x, hLabel, hBound, rfl⟩
  rcases hFlows.jump l hLabel with ⟨e, hEntry, rfl⟩
  rcases hMeasured.bound l x hBound with ⟨e', hEntry', hDepth⟩
  rw [hEntry] at hEntry'
  cases hEntry'
  exact ⟨x, rfl, hDepth⟩

/- The instruction at a position has a mark with a depth. -/
def Marked
    (m : MethodDraft)
    (p : ConstantPool)
    (ks : List Mark)
    (is : List Instruction)
    (n depth : Nat) : Prop :=
  ∃ k i, ks[n]? = some k ∧ is[n]? = some i ∧ k.Becomes m p i ∧
    k.depth = depth

/- There is one instruction at an offset, and it is marked. -/
theorem Measured.marked
    {x n depth : Nat}
    {i : Instruction}
    (hMeasured : Measured m ks)
    (hEnd : m.reachable = false)
    (hBecomes : List.Forall₂ (Mark.Becomes m p) ks is)
    (hAt : m.DepthAt ks x depth)
    (hi : is[n]? = some i)
    (hOffset : i.offset = x) :
    Marked m p ks is n depth := by
  have hOffsets :=
    (laidOut_of_placed hMeasured.placed hBecomes).pairwise
  rcases exists_at hEnd hBecomes hAt with
    ⟨n', k, j, hk, hj, hOffset', hDepth⟩
  have hOne := CodeMap.positions_of_pairwise hOffsets hi
  have hTwo := CodeMap.positions_of_pairwise hOffsets hj
  rw [hOffset'] at hTwo
  rw [hOffset, hTwo] at hOne
  cases hOne
  rcases exists_mark hBecomes hi with ⟨k', hk', hSame⟩
  rw [hk] at hk'
  cases hk'
  exact ⟨k, i, hk, hi, hSame, hDepth⟩

/- The first instruction is reached with nothing on the stack. -/
theorem Measured.marked_start
    (hMeasured : Measured m ks)
    (hEnd : m.reachable = false)
    (hBecomes : List.Forall₂ (Mark.Becomes m p) ks is) :
    Marked m p ks is 0 0 := by
  have hLaid := laidOut_of_placed hMeasured.placed hBecomes
  rcases exists_at hEnd hBecomes hMeasured.start with
    ⟨n, k, i, -, hi, -, -⟩
  cases is with
  | nil => cases hi
  | cons first is =>
      exact hMeasured.marked hEnd hBecomes hMeasured.start
        (n := 0) rfl hLaid.1

/- What a marked instruction does to the depth of its mark. -/
theorem Marked.flows
    {n depth : Nat}
    {i : Instruction}
    (hMeasured : Measured m ks)
    (hMarked : Marked m p ks is n depth)
    (hAt : is[n]? = some i) :
    ∃ (k : Mark) (pops pushes : Nat), k.Becomes m p i ∧
      i.effect? p = some (pops, pushes) ∧ pops ≤ depth ∧
      k.Flows m ks (depth - pops + pushes) := by
  rcases hMarked with ⟨k, j, hk, hj, hSame, rfl⟩
  rw [hAt] at hj
  cases hj
  rcases hMeasured.flows k (List.mem_of_getElem? hk) with
    ⟨after, hFlows⟩
  rcases hFlows.takes with
    ⟨base, pops, pushes, hEffect, hBefore, rfl⟩
  have hAfter : k.depth - pops + pushes = base + pushes := by omega
  refine ⟨k, pops, pushes, hSame, ?_, by omega, ?_⟩
  · rw [Instruction.effect?_of_action hSame.action, hEffect]
  · rw [hAfter]
    exact hFlows

/- What follows a marked instruction is the next one. -/
theorem Measured.marked_next
    {n after : Nat}
    {k : Mark}
    {i : Instruction}
    (hMeasured : Measured m ks)
    (hEnd : m.reachable = false)
    (hBecomes : List.Forall₂ (Mark.Becomes m p) ks is)
    (hAt : is[n]? = some i)
    (hSame : k.Becomes m p i)
    (hFlows : k.Flows m ks after)
    (hGoesOn : i.opcode.isTerminator = false) :
    n + 1 < is.length ∧ Marked m p ks is (n + 1) after := by
  have hLaid := laidOut_of_placed hMeasured.placed hBecomes
  rw [(Instruction.isTerminator_of_action hSame.action).1] at hGoesOn
  have hDepth := hFlows.next hGoesOn
  rcases exists_at hEnd hBecomes hDepth with
    ⟨n', k', j, -, hj, hOffset, -⟩
  have hNext : is[n + 1]? = some j :=
    hLaid.getElem?_succ hAt (List.mem_of_getElem? hj)
      (hOffset.trans hSame.next.symm)
  exact ⟨(List.getElem?_eq_some_iff.mp hNext).1,
    hMeasured.marked hEnd hBecomes hDepth hNext hOffset⟩

/- A step of the check goes from one mark to another. -/
theorem Measured.marked_step
    {c c' : Nat × Nat}
    (hMeasured : Measured m ks)
    (hEnd : m.reachable = false)
    (hBecomes : List.Forall₂ (Mark.Becomes m p) ks is)
    (hMarked : Marked m p ks is c.1 c.2)
    (hStep : DepthStep p is c c') :
    Marked m p ks is c'.1 c'.2 := by
  cases hStep with
  | next hAt hEffect hEnough hGoesOn hMore =>
      rcases Marked.flows hMeasured hMarked hAt with
        ⟨k, pops, pushes, hSame, hEffect', -, hFlows⟩
      rw [hEffect] at hEffect'
      cases hEffect'
      exact (hMeasured.marked_next hEnd hBecomes hAt hSame hFlows
        hGoesOn).2
  | jump hAt hEffect hEnough hThere hTarget =>
      rcases Marked.flows hMeasured hMarked hAt with
        ⟨k, pops, pushes, hSame, hEffect', -, hFlows⟩
      rw [hEffect] at hEffect'
      cases hEffect'
      rcases hMeasured.depthAt_target hSame hFlows hTarget with
        ⟨x, hOffset, hDepth⟩
      exact hMeasured.marked hEnd hBecomes hDepth hThere
        (Int.ofNat_inj.mp hOffset)

/- Whatever the check reaches is marked. -/
theorem Measured.marked_of_reached
    {n depth : Nat}
    (hMeasured : Measured m ks)
    (hEnd : m.reachable = false)
    (hBecomes : List.Forall₂ (Mark.Becomes m p) ks is)
    (hReached : DepthReached p is n depth) :
    Marked m p ks is n depth := by
  have hAll : ∀ c, Relation.ReflTransGen (DepthStep p is) (0, 0) c →
      Marked m p ks is c.1 c.2 := by
    intro c hPath
    induction hPath with
    | refl => exact hMeasured.marked_start hEnd hBecomes
    | tail _ hStep ih =>
        exact hMeasured.marked_step hEnd hBecomes ih hStep
  exact hAll (n, depth) hReached

/- The code of a measured draft is safe along all paths. -/
theorem Measured.depthSafe
    (hMeasured : Measured m ks)
    (hEnd : m.reachable = false)
    (hBecomes : List.Forall₂ (Mark.Becomes m p) ks is) :
    DepthSafe p m.maxStack is := by
  refine ⟨?_, ?_⟩
  · intro n depth hReached
    have hMarked :=
      hMeasured.marked_of_reached hEnd hBecomes hReached
    rcases hMarked with ⟨k', i, hk', hAt, hSame', hDepth⟩
    rcases Marked.flows hMeasured ⟨k', i, hk', hAt, hSame', hDepth⟩
      hAt with ⟨k, pops, pushes, hSame, hEffect, hEnough, hFlows⟩
    refine ⟨i, pops, pushes, hAt, hEffect, hEnough, hFlows.low, ?_⟩
    intro hGoesOn
    exact (hMeasured.marked_next hEnd hBecomes hAt hSame hFlows
      hGoesOn).1
  · intro n depth depth' hOne hTwo
    rcases hMeasured.marked_of_reached hEnd hBecomes hOne with
      ⟨k, _, hk, -, -, rfl⟩
    rcases hMeasured.marked_of_reached hEnd hBecomes hTwo with
      ⟨k', _, hk', -, -, rfl⟩
    rw [hk] at hk'
    cases hk'
    rfl

end Depths

------------------------------------------------------------
-- Checked Code
------------------------------------------------------------

section Checked

variable {m : MethodDraft} {p : ConstantPool} {ks : List Mark}
variable {is : List Instruction}

/- A measured draft becomes a method body that is well-formed. -/
theorem Measured.verify
    {body : CodeAttribute}
    (hMeasured : Measured m ks)
    (hEnd : m.reachable = false)
    (hResolve : m.resolve = .ok is)
    (hWithin : m.pool.Within p)
    (hCode : body.code = is.flatMap Instruction.encode)
    (hStack : body.maxStack = m.maxStack)
    (hLocals : body.maxLocals = m.maxLocals) :
    body.verify p = .ok () := by
  have hBecomes := hMeasured.becomes hWithin hResolve
  have hLaid := laidOut_of_placed hMeasured.placed hBecomes
  have hSafe := hMeasured.depthSafe hEnd hBecomes
  have hWidths : m.maxLocals.toNat = Ty.widths m.types := by
    have hSmall := hMeasured.sound.small
    rw [← hMeasured.sound.size]
    exact UInt16.toNat_ofNat'.trans (Nat.mod_eq_of_lt (by omega))
  have hDecode : decodeCode body.code = .ok is := by
    rw [hCode]
    exact hLaid.decodeCode_encode
  refine CodeAttribute.verify_of_depthSafe hDecode ?_ ?_ ?_ ?_ ?_
  · rcases hMeasured.marked_start hEnd hBecomes with ⟨-, i, -, hi, -⟩
    rintro rfl
    cases hi
  · intro i hi t hTarget
    rcases mark_of_instruction hBecomes hi with ⟨k, hk, hSame⟩
    rcases hMeasured.flows k hk with ⟨after, hFlows⟩
    rcases hMeasured.depthAt_target hSame hFlows hTarget with
      ⟨x, rfl, hDepth⟩
    rcases exists_at hEnd hBecomes hDepth with
      ⟨_, _, j, -, hj, rfl, -⟩
    exact ⟨j, List.mem_of_getElem? hj, rfl⟩
  · intro i hi
    rcases mark_of_instruction hBecomes hi with ⟨k, -, hSame⟩
    exact Instruction.checkConstant_eq_ok_iff.mp
      (Instruction.checkConstant_of_action hSame.action)
  · intro i hi
    rcases mark_of_instruction hBecomes hi with ⟨k, hk, hSame⟩
    apply Instruction.checkLocal_eq_ok_iff.mp
    apply Instruction.checkLocal_of_action hSame.action
    rw [hLocals, hWidths]
    exact hMeasured.range k hk
  · rw [hStack]
    exact hSafe

end Checked

------------------------------------------------------------
-- Beginning and Finishing
------------------------------------------------------------

section Ends

variable {m m' : MethodDraft} {member : Member}

/- A method without code is measured. -/
theorem measured_method
    {c : ClassDraft}
    {access : UInt16}
    {name : String}
    {signature : MethodSig}
    {paramNames : List String}
    (hPool : c.pool.Sound)
    (hMethod : c.method access name signature paramNames = .ok m) :
    Measured m [] := by
  have hBare := ClassDraft.bare_method hMethod
  refine ⟨ClassDraft.sound_method hPool hMethod, ⟨?_, ?_⟩, ?_,
    hBare.offset.symm, List.forall_mem_nil _, List.forall_mem_nil _,
    List.forall_mem_nil _,
    Or.inr ⟨hBare.offset, hBare.reachable, ?_⟩, ?_, ?_⟩
  · rw [hBare.depth, hBare.stack]
    rfl
  · rw [hBare.depth]
    exact Nat.zero_le _
  · rw [hBare.lines]
    rfl
  · rw [MethodDraft.height, hBare.stack]
    rfl
  · intro l x hx
    rw [hBare.labelAt] at hx
    cases hx
  · intro l e he
    rw [hBare.labelAt] at he
    cases he

namespace MethodDraft

theorem grows_localTable
    (m : MethodDraft)
    (size : Nat) :
    (m.localTable size).Grows := by
  refine (grows_localEntries size m.locals.toList).bind fun es => ?_
  split
  · exact Pooling.grows_pure _
  · exact (Pooling.grows_text _).bind fun _ => Pooling.grows_pure _

theorem grows_frameTable
    (m : MethodDraft) :
    m.frameTable.Grows := by
  unfold frameTable
  split
  · exact Pooling.grows_pure _
  · split
    · exact Pooling.grows_pure _
    · exact (Frame.grows_encodeTable _).bind fun _ =>
        (Pooling.grows_text _).bind fun _ => Pooling.grows_pure _

theorem grows_member
    (m : MethodDraft)
    (code : List UInt8) :
    (m.member code).Grows :=
  (m.grows_localTable _).bind fun _ => m.grows_frameTable.bind fun _ =>
    (Pooling.grows_text _).bind fun _ =>
      (Pooling.grows_mapM _ grows_signatureAttribute).bind fun _ =>
        (Pooling.grows_text _).bind fun _ =>
          (Pooling.grows_text _).bind fun _ => Pooling.grows_pure _

theorem safe_finish :
    Emitter.Safe finish := by
  refine Emitter.safe_get.bind fun m => ?_
  split
  · exact Emitter.safe_throw _
  · exact Emitter.safe_throw _
  · dsimp only
    split
    · exact Emitter.safe_throw _
    · exact Emitter.safe_pooled (m.grows_member _)

/- The code and the tables of a finished method. -/
theorem finish_parts
    (hIndexed : m.pool.Indexed)
    (hRun : Yields finish m member m') :
    ∃ (is : List Instruction) (body : CodeAttribute)
      (codeName : UInt16) (rest : List Attribute),
      (m.resolve = .ok is ∧
        body.code = is.flatMap Instruction.encode ∧
        body.maxStack = m.maxStack ∧
        body.maxLocals = m.maxLocals ∧
        member.attributes =
          { name := codeName, info := body.encode } :: rest ∧
        m'.pool.textAt? codeName = some "Code") ∧
      body.code.length ≤ 65535 ∧
      ∃ (localTable frameTable : List Attribute)
        (p q : ConstantPool),
        body.attributes = localTable ++ frameTable ∧
        Yields (m.localTable body.code.length) m.pool localTable p ∧
        Yields m.frameTable p frameTable q ∧
        q.Within m'.pool := by
  unfold finish at hRun
  simp only [yields_bind, yields_get] at hRun
  rcases hRun with ⟨_, m, ⟨rfl, rfl⟩, hRun⟩
  split at hRun
  case h_1 => exact absurd hRun yields_throw
  case h_2 => exact absurd hRun yields_throw
  case h_3 is _ hResolve =>
      split at hRun
      case isTrue => exact absurd hRun yields_throw
      case isFalse hSize =>
          rcases Emitter.yields_pooled.mp hRun with ⟨q, hMember, rfl⟩
          simp only [MethodDraft.member, yields_bind, yields_pure]
            at hMember
          rcases hMember with ⟨localTable, p₁, hLocals, frameTable,
            p₂, hFrames, codeName, p₃, hCode, signatures, p₄,
            hSignatures, name, p₅, hName, descriptor, p₆,
            hDescriptor, rfl, rfl⟩
          have hBefore := ((m.grows_localTable _).of_yields
            hLocals).trans (m.grows_frameTable.of_yields hFrames)
          have hAfter := ((signatures_spec hSignatures).1.trans
            ((Pooling.grows_text _).of_yields hName)).trans
            ((Pooling.grows_text _).of_yields hDescriptor)
          refine ⟨is, _, codeName, signatures,
            ⟨hResolve, rfl, rfl, rfl, rfl, ?_⟩,
            Nat.not_lt.mp fun hLong => hSize (Or.inr hLong),
            localTable, frameTable, p₁, p₂, rfl, hLocals, hFrames,
            ?_⟩
          · exact hAfter.within.textAt? (Pooling.text_textAt?
              (hBefore.indexed hIndexed) hCode)
          · exact (((Pooling.grows_text _).of_yields hCode).trans
              hAfter).within

/- The code of a finished method is that of its draft. -/
theorem finish_body
    (hIndexed : m.pool.Indexed)
    (hRun : Yields finish m member m') :
    ∃ (is : List Instruction) (body : CodeAttribute)
      (codeName : UInt16) (rest : List Attribute),
      m.resolve = .ok is ∧
      body.code = is.flatMap Instruction.encode ∧
      body.maxStack = m.maxStack ∧
      body.maxLocals = m.maxLocals ∧
      member.attributes =
        { name := codeName, info := body.encode } :: rest ∧
      m'.pool.textAt? codeName = some "Code" := by
  rcases finish_parts hIndexed hRun with
    ⟨is, body, codeName, rest, hBody, -⟩
  exact ⟨is, body, codeName, rest, hBody⟩

theorem finish_spec
    (hSound : m.Sound)
    (hRun : Yields finish m member m') :
    ∃ (is : List Instruction) (body : CodeAttribute)
      (codeName : UInt16) (rest : List Attribute),
      m.resolve = .ok is ∧
      body.code = is.flatMap Instruction.encode ∧
      body.maxStack = m.maxStack ∧
      body.maxLocals = m.maxLocals ∧
      member.attributes =
        { name := codeName, info := body.encode } :: rest ∧
      m'.pool.textAt? codeName = some "Code" :=
  finish_body hSound.pool.indexed hRun

end MethodDraft

end Ends

end Stratagem

import Stratagem.Proofs.ClassFile.DepthSafety
import Stratagem.Proofs.Code.Flow

/-
  Code that flows well passes the structural check.

  Key definitions include:
    * `Instruction.point?`
    * `Linked`

  Main declarations:
    * `CodeMap.explore_of_flow`
    * `CodeAttribute.verify_of_flow`
-/

namespace Stratagem

------------------------------------------------------------
-- Points of Instructions
------------------------------------------------------------

/- What an instruction does where it stands. -/
def Instruction.point?
    (p : ConstantPool)
    (i : Instruction) : Option CodePoint :=
  (i.action? p).map fun action =>
    { offset := i.offset
      next := i.next
      action
      target := i.target?.bind Int.toNat? }

/- Each instruction has the point at its position. -/
def Linked
    (p : ConstantPool)
    (is : List Instruction)
    (code : List CodePoint) : Prop :=
  is.map (Instruction.point? p) = code.map some

namespace Linked

variable {p : ConstantPool} {is : List Instruction}
variable {code : List CodePoint}

theorem point?_of_getElem?
    (hLinked : Linked p is code)
    {n : Nat}
    {i : Instruction}
    (hInstruction : is[n]? = some i) :
    ∃ q, code[n]? = some q ∧ i.point? p = some q := by
  have hAt := congrArg (·[n]?) hLinked
  simp only [List.getElem?_map, hInstruction,
    Option.map_some] at hAt
  rcases Option.map_eq_some_iff.mp hAt.symm with ⟨q, hq, hPoint⟩
  exact ⟨q, hq, hPoint.symm⟩

theorem instruction_of_getElem?
    (hLinked : Linked p is code)
    {n : Nat}
    {q : CodePoint}
    (hPoint : code[n]? = some q) :
    ∃ i, is[n]? = some i ∧ i.point? p = some q := by
  have hAt := congrArg (·[n]?) hLinked
  simp only [List.getElem?_map, hPoint, Option.map_some] at hAt
  rcases Option.map_eq_some_iff.mp hAt with ⟨i, hi, hLink⟩
  exact ⟨i, hi, hLink⟩

/- The points stand where the instructions do. -/
theorem offsets
    (hLinked : Linked p is code) :
    is.map Instruction.offset = code.map CodePoint.offset := by
  apply List.ext_getElem?
  intro n
  rw [List.getElem?_map, List.getElem?_map]
  cases hInstruction : is[n]? with
  | none =>
      have hLength := congrArg List.length hLinked
      rw [List.length_map, List.length_map] at hLength
      rw [List.getElem?_eq_none_iff] at hInstruction
      rw [List.getElem?_eq_none (by omega)]
      rfl
  | some i =>
      rcases hLinked.point?_of_getElem? hInstruction with
        ⟨q, hq, hPoint⟩
      rcases Option.map_eq_some_iff.mp hPoint with ⟨a, _, rfl⟩
      rw [hq]
      rfl

/- A pool that holds more links the instructions as well. -/
theorem within
    {p' : ConstantPool}
    (hWithin : p.Within p')
    (hLinked : Linked p is code) :
    Linked p' is code := by
  refine Eq.trans (List.map_congr_left ?_) hLinked
  intro i hIn
  rcases List.getElem?_of_mem hIn with ⟨n, hn⟩
  rcases hLinked.point?_of_getElem? hn with ⟨q, _, hPoint⟩
  rcases Option.map_eq_some_iff.mp hPoint with ⟨a, hAction, _⟩
  rw [Instruction.point?, Instruction.point?, hAction,
    Instruction.action?_within hWithin hAction]

end Linked

theorem Chained.pairwise
    {start stop : Nat}
    {code : List CodePoint}
    (hChained : Chained start code stop) :
    code.Pairwise fun q r => q.offset < r.offset := by
  induction code generalizing start with
  | nil => exact List.Pairwise.nil
  | cons first code ih =>
      rcases hChained with ⟨rfl, hSize, hRest⟩
      refine List.pairwise_cons.mpr ⟨?_, ih hRest⟩
      intro r hIn
      have hBounds := hRest.bounds hIn
      omega

theorem Chained.getElem?_succ
    {start stop n : Nat}
    {code : List CodePoint}
    (hChained : Chained start code stop)
    {q : CodePoint}
    (hPoint : code[n]? = some q) :
    (code[n + 1]? = none ∧ q.next = stop) ∨
      ∃ r, code[n + 1]? = some r ∧ r.offset = q.next := by
  induction code generalizing start n with
  | nil => cases hPoint
  | cons first code ih =>
      rcases hChained with ⟨rfl, hSize, hRest⟩
      cases n with
      | zero =>
          cases hPoint
          cases code with
          | nil => exact Or.inl ⟨rfl, hRest⟩
          | cons r code => exact Or.inr ⟨r, rfl, hRest.1⟩
      | succ n => exact ih hRest hPoint

------------------------------------------------------------
-- Positions by Offset
------------------------------------------------------------

namespace CodeMap

/- Code that was laid out is found by its offsets. -/
theorem positions_ofList
    {p : ConstantPool}
    {is : List Instruction}
    {code : List CodePoint}
    {start stop n : Nat}
    (hLinked : Linked p is code)
    (hChained : Chained start code stop)
    {i : Instruction}
    (hInstruction : is[n]? = some i) :
    (ofList is).positions[i.offset]? = some n := by
  refine positions_of_pairwise ?_ hInstruction
  have hIncreasing := hChained.pairwise
  rw [← List.pairwise_map, ← hLinked.offsets, List.pairwise_map]
    at hIncreasing
  exact hIncreasing

------------------------------------------------------------
-- Exploring
------------------------------------------------------------

section Exploring

variable {frame : MethodFrame} {limit : UInt16}
variable {p : ConstantPool} {is : List Instruction}
variable {code : List CodePoint} {s₀ : TypeState} {stop : Nat}

/- A position is reached in a state of some height. -/
def ReachedAt
    (frame : MethodFrame)
    (is : List Instruction)
    (code : List CodePoint)
    (s₀ : TypeState)
    (position depth : Nat) : Prop :=
  ∃ i s, is[position]? = some i ∧
    Reached frame code 0 s₀ i.offset s ∧ s.height = depth

/- Where code that flows arrives, there is an instruction. -/
theorem exists_instruction
    (hLinked : Linked p is code)
    (hFlow : Flow frame limit.toNat 0 s₀ code stop none)
    {x : Nat}
    {s : TypeState}
    (hReached : Reached frame code 0 s₀ x s) :
    ∃ (n : Nat) (i : Instruction) (q : CodePoint),
      is[n]? = some i ∧ i.offset = x ∧
      code[n]? = some q ∧ i.point? p = some q ∧
      q.Accepts frame limit.toNat s := by
  rcases hFlow.sound x s hReached with
    ⟨_, hNone⟩ | ⟨q, hIn, rfl, hAccepts⟩
  · cases hNone
  · rcases List.getElem?_of_mem hIn with ⟨n, hq⟩
    rcases hLinked.instruction_of_getElem? hq with
      ⟨i, hi, hPoint⟩
    have hOffset : i.offset = q.offset := by
      rcases Option.map_eq_some_iff.mp hPoint with ⟨a, _, rfl⟩
      rfl
    exact ⟨n, i, q, hi, hOffset, hq, hPoint, hAccepts⟩

/- In particular where it stands at an instruction. -/
theorem accepts_of_reached
    (hLinked : Linked p is code)
    (hFlow : Flow frame limit.toNat 0 s₀ code stop none)
    {n : Nat}
    {i : Instruction}
    {q : CodePoint}
    {s : TypeState}
    (hInstruction : is[n]? = some i)
    (hq : code[n]? = some q)
    (hReached : Reached frame code 0 s₀ i.offset s) :
    q.Accepts frame limit.toNat s := by
  rcases exists_instruction hLinked hFlow hReached with
    ⟨k, j, r, hj, hOffset, hr, hPoint, hAccepts⟩
  have hj' := positions_ofList hLinked hFlow.chained hj
  have hi' := positions_ofList hLinked hFlow.chained hInstruction
  rw [hOffset, hi'] at hj'
  cases hj'
  rw [hr] at hq
  cases hq
  exact hAccepts

/- The depth behind an accepted instruction is the height. -/
theorem depthAfter_of_accepts
    {i : Instruction}
    {q : CodePoint}
    {s s' : TypeState}
    (hPoint : i.point? p = some q)
    (hCheck : q.action.check frame s = some s')
    (hHigh : s'.height ≤ limit.toNat) :
    depthAfter p limit i s.height = .ok s'.height := by
  rcases Option.map_eq_some_iff.mp hPoint with ⟨a, hAction, rfl⟩
  rcases Action.effect?_of_check hCheck with
    ⟨base, pops, pushes, hEffect, hBefore, hAfter⟩
  have hSame : s.height - pops + pushes = s'.height := by omega
  have hEnough : ¬ s.height < pops := by omega
  have hRoom : ¬ limit.toNat < s'.height := by omega
  unfold depthAfter
  rw [Instruction.effect?_of_action hAction, hEffect]
  dsimp only
  rw [if_neg hEnough, hSame, if_neg hRoom]

/- A jump leads to a position that is reached. -/
theorem targetOf?_of_reached
    (hLinked : Linked p is code)
    (hFlow : Flow frame limit.toNat 0 s₀ code stop none)
    {i : Instruction}
    {q : CodePoint}
    {s s' : TypeState}
    (hIn : q ∈ code)
    (hPoint : i.point? p = some q)
    (hReached : Reached frame code 0 s₀ i.offset s)
    (hAccepts : q.Accepts frame limit.toNat s)
    (hCheck : q.action.check frame s = some s')
    (hBranch : i.target?.isSome) :
    ∃ k, (ofList is).targetOf? i = some k ∧
      ReachedAt frame is code s₀ k s'.height := by
  rcases Option.map_eq_some_iff.mp hPoint with ⟨a, hAction, rfl⟩
  have hJump : a.isJump = true := by
    rw [← (Instruction.isTerminator_of_action hAction).2]
    unfold Instruction.target? at hBranch
    split at hBranch
    case isTrue hOp => exact hOp
    case isFalse => cases hBranch
  rcases Option.isSome_iff_exists.mp (hAccepts.2 hJump) with
    ⟨target, hTarget⟩
  have hThere : Reached frame code 0 s₀ target s' :=
    .jump hReached hIn hCheck hJump hTarget
  rcases exists_instruction hLinked hFlow hThere with
    ⟨k, j, _, hj, rfl, _⟩
  have hPosition := positions_ofList hLinked hFlow.chained hj
  refine ⟨k, ?_, j, s', hj, hThere, rfl⟩
  dsimp only at hTarget
  rcases Option.bind_eq_some_iff.mp hTarget with ⟨t, ht, hNat⟩
  have hInt : t = (j.offset : Int) := by
    cases t with
    | ofNat n =>
        simp only [Int.toNat?, Option.some.injEq] at hNat
        rw [hNat]
        rfl
    | negSucc n => cases hNat
  rw [targetOf?, ht, Option.bind_some, hInt]
  simpa using hPosition

/- Whatever is reached, the positions behind it are too. -/
theorem successors_of_reached
    (hLinked : Linked p is code)
    (hFlow : Flow frame limit.toNat 0 s₀ code stop none)
    {position depth : Nat}
    {i : Instruction}
    (hInstruction : is[position]? = some i)
    (hReached : ReachedAt frame is code s₀ position depth) :
    ∃ after next, depthAfter p limit i depth = .ok after ∧
      successors (ofList is) position i = .ok next ∧
      ∀ n ∈ next, ReachedAt frame is code s₀ n after := by
  rcases hReached with ⟨j, s, hj, hReached, rfl⟩
  rw [hInstruction] at hj
  cases hj
  rcases hLinked.point?_of_getElem? hInstruction with
    ⟨q, hq, hPoint⟩
  have hIn : q ∈ code := List.mem_of_getElem? hq
  have hAccepts :=
    accepts_of_reached hLinked hFlow hInstruction hq hReached
  rcases hAccepts with ⟨⟨s', hCheck, hHigh⟩, hTarget⟩
  have hDepth := depthAfter_of_accepts hPoint hCheck hHigh
  have hJumps : ∀ n ∈ ((ofList is).targetOf? i).toList,
      ReachedAt frame is code s₀ n s'.height := by
    intro n hn
    rw [Option.mem_toList] at hn
    have hBranch : i.target?.isSome := by
      rcases Option.bind_eq_some_iff.mp hn with ⟨t, ht, _⟩
      rw [ht]
      rfl
    rcases targetOf?_of_reached hLinked hFlow hIn hPoint hReached
      ⟨⟨s', hCheck, hHigh⟩, hTarget⟩ hCheck hBranch with
      ⟨k, hk, hAt⟩
    rw [hn] at hk
    cases hk
    exact hAt
  rcases Option.map_eq_some_iff.mp hPoint with ⟨a, hAction, rfl⟩
  have hStops := (Instruction.isTerminator_of_action hAction).1
  unfold successors
  cases hEnds : i.opcode.isTerminator with
  | true =>
      exact ⟨s'.height, _, hDepth, if_pos rfl, hJumps⟩
  | false =>
      have hNext : Reached frame code 0 s₀ i.next s' :=
        .next hReached hIn hCheck (hStops.symm.trans hEnds)
      rcases hFlow.chained.getElem?_succ hq with
        ⟨_, hEnd⟩ | ⟨r, hr, hBehind⟩
      · -- code never runs past its end
        rcases hFlow.sound _ _ hNext with
          ⟨_, hNone⟩ | ⟨r, hr, hOffset, _⟩
        · cases hNone
        · have hBounds := hFlow.chained.bounds hr
          dsimp only at hEnd
          omega
      · rcases hLinked.instruction_of_getElem? hr with
          ⟨j, hj, hLink⟩
        have hMore : position + 1 < (ofList is).instructions.size := by
          rcases List.getElem?_eq_some_iff.mp hj with ⟨hLt, _⟩
          simpa [ofList] using hLt
        refine ⟨s'.height, _, hDepth,
          (if_neg (by simp)).trans (if_pos hMore), ?_⟩
        intro n hn
        rcases List.mem_cons.mp hn with rfl | hTail
        · rcases Option.map_eq_some_iff.mp hLink with ⟨_, _, rfl⟩
          dsimp only at hBehind
          refine ⟨j, s', hj, ?_, rfl⟩
          rw [hBehind]
          exact hNext
        · exact hJumps n hTail

/- Two heights at one position are the same. -/
theorem ReachedAt.unique
    (hFlow : Flow frame limit.toNat 0 s₀ code stop none)
    {position depth depth' : Nat}
    (hOne : ReachedAt frame is code s₀ position depth)
    (hOther : ReachedAt frame is code s₀ position depth') :
    depth = depth' := by
  rcases hOne with ⟨i, s, hi, hReached, rfl⟩
  rcases hOther with ⟨j, s', hj, hReached', rfl⟩
  rw [hi] at hj
  cases hj
  rw [hFlow.single _ s s' hReached hReached']

/- Exploring code that flows finds nothing wrong. -/
theorem explore_of_flow
    (hLinked : Linked p is code)
    (hFlow : Flow frame limit.toNat 0 s₀ code stop none)
    (depths : Array (Option Nat))
    (work : List (Nat × Nat))
    (hDepths : ∀ n d, depths[n]? = some (some d) →
      ReachedAt frame is code s₀ n d)
    (hWork : ∀ x ∈ work, ReachedAt frame is code s₀ x.1 x.2) :
    explore (ofList is) p limit depths work = .ok () := by
  refine explore_of_closed (R := ReachedAt frame is code s₀) ?_
    (ReachedAt.unique hFlow) depths work hDepths hWork
  intro n depth i hi hReached
  exact successors_of_reached hLinked hFlow hi hReached

end Exploring

end CodeMap

------------------------------------------------------------
-- Method Bodies
------------------------------------------------------------

/- No local of code is out of range. -/
def LocalsWithin
    (limit : Nat)
    (code : List CodePoint) : Prop :=
  ∀ q ∈ code, ∀ slot width,
    q.action.slot? = some (slot, width) → slot + width ≤ limit

/-
  A method body whose code flows from an empty stack is fine.
  Its start is reached, so there is an instruction.
-/
theorem CodeAttribute.verify_of_flow
    {frame : MethodFrame}
    {c : CodeAttribute}
    {p : ConstantPool}
    {is : List Instruction}
    {code : List CodePoint}
    {s₀ : TypeState}
    {stop : Nat}
    (hDecode : decodeCode c.code = .ok is)
    (hLinked : Linked p is code)
    (hEmpty : s₀.height = 0)
    (hFlow : Flow frame c.maxStack.toNat 0 s₀ code stop none)
    (hLocals : LocalsWithin c.maxLocals.toNat code) :
    c.verify p = .ok () := by
  have hStart : Reached frame code 0 s₀ 0 s₀ := .entry
  rcases CodeMap.exists_instruction hLinked hFlow hStart with
    ⟨n, first, _, hFirst, hOffset, _⟩
  have hAction : ∀ i ∈ is, ∃ q ∈ code, i.point? p = some q ∧
      i.action? p = some q.action := by
    intro i hi
    rcases List.getElem?_of_mem hi with ⟨n, hn⟩
    rcases hLinked.point?_of_getElem? hn with ⟨q, hq, hPoint⟩
    refine ⟨q, List.mem_of_getElem? hq, hPoint, ?_⟩
    rcases Option.map_eq_some_iff.mp hPoint with ⟨a, hAction, rfl⟩
    exact hAction
  have hTargets : ∀ i ∈ is,
      (CodeMap.ofList is).checkTarget i = .ok () := by
    intro i hi
    rcases List.getElem?_of_mem hi with ⟨n, hn⟩
    rcases hLinked.point?_of_getElem? hn with ⟨q, hq, hPoint⟩
    have hIn := List.mem_of_getElem? hq
    rcases hFlow.covers q hIn with ⟨s, hReached⟩
    have hPlace : i.offset = q.offset := by
      rcases Option.map_eq_some_iff.mp hPoint with ⟨a, _, rfl⟩
      rfl
    rw [← hPlace] at hReached
    have hAccepts := CodeMap.accepts_of_reached hLinked hFlow hn hq
      hReached
    rcases hAccepts.1 with ⟨s', hCheck, _⟩
    unfold CodeMap.checkTarget
    cases hTarget : i.target? with
    | none => rfl
    | some t =>
        have hBranch : i.target?.isSome := by rw [hTarget]; rfl
        rcases CodeMap.targetOf?_of_reached hLinked hFlow hIn
          hPoint hReached hAccepts hCheck hBranch with ⟨k, hk, _⟩
        dsimp only
        rw [hk]
        rfl
  have hConstants : ∀ i ∈ is, i.checkConstant p = .ok () := by
    intro i hi
    rcases hAction i hi with ⟨q, _, _, ha⟩
    exact Instruction.checkConstant_of_action ha
  have hRange : ∀ i ∈ is, i.checkLocal c.maxLocals = .ok () := by
    intro i hi
    rcases hAction i hi with ⟨q, hq, _, ha⟩
    exact Instruction.checkLocal_of_action ha (hLocals q hq)
  have hExplore : (CodeMap.ofList is).explore p c.maxStack
      (Array.replicate is.length none) [(0, 0)] = .ok () := by
    refine CodeMap.explore_of_flow hLinked hFlow _ _ ?_ ?_
    · intro n d hd
      rw [Array.getElem?_replicate] at hd
      split at hd <;> cases hd
    · intro x hx
      rw [List.mem_singleton.mp hx]
      cases is with
      | nil => cases hFirst
      | cons i is =>
          refine ⟨i, s₀, rfl, ?_, hEmpty⟩
          rcases hLinked.point?_of_getElem? (n := 0) rfl with
            ⟨q, hq, hPoint⟩
          rcases Option.map_eq_some_iff.mp hPoint with ⟨a, _, rfl⟩
          cases code with
          | nil => cases hq
          | cons r code =>
              cases hq
              have hZero : 0 = i.offset := hFlow.chained.1.symm
              exact hZero ▸ hStart
  have hSome : is ≠ [] := by
    rintro rfl
    cases hFirst
  exact verify_eq_ok_iff.mpr
    ⟨is, hDecode, hSome, hTargets, hConstants, hRange, hExplore⟩

end Stratagem

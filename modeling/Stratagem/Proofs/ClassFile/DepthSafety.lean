import Mathlib.Logic.Relation
import Std.Data.HashMap.Lemmas
import Stratagem.ClassFile.Check
import Stratagem.Proofs.Steps
import Stratagem.Proofs.Code.Layout

/-
  What the structural check of a method body decides.

  A configuration is a position in the code with the depth of
  the stack there.  The check follows some paths from the
  first position; it accepts just the code that is safe along
  all of them.

  Key definitions include:
    * `DepthStep`
    * `DepthReached`
    * `SafeAt`
    * `DepthSafe`
    * `CodeMap.loop`

  Main declarations:
    * `CodeMap.explore_of_closed`
    * `CodeMap.closed_of_explore`
    * `CodeMap.loop_eq_explore`
    * `CodeAttribute.verify_eq_ok_iff`
    * `CodeAttribute.verify_iff_depthSafe`
-/

namespace Stratagem

------------------------------------------------------------
-- Configurations
------------------------------------------------------------

/-
  One step of a method body that keeps track of the depth of
  the stack only.  It takes the next instruction, unless this
  one never goes on, or the one that a jump goes to.
-/
inductive DepthStep
    (p : ConstantPool)
    (is : List Instruction) : Nat × Nat → Nat × Nat → Prop
  | next
      {n depth pops pushes : Nat}
      {i : Instruction}
      (hAt : is[n]? = some i)
      (hEffect : i.effect? p = some (pops, pushes))
      (hEnough : pops ≤ depth)
      (hGoesOn : i.opcode.isTerminator = false)
      (hMore : n + 1 < is.length) :
      DepthStep p is (n, depth) (n + 1, depth - pops + pushes)
  | jump
      {n k depth pops pushes : Nat}
      {i j : Instruction}
      (hAt : is[n]? = some i)
      (hEffect : i.effect? p = some (pops, pushes))
      (hEnough : pops ≤ depth)
      (hThere : is[k]? = some j)
      (hTarget : i.target? = some (j.offset : Int)) :
      DepthStep p is (n, depth) (k, depth - pops + pushes)

/- A position is reached with a depth, along some path. -/
def DepthReached
    (p : ConstantPool)
    (is : List Instruction)
    (n depth : Nat) : Prop :=
  Relation.ReflTransGen (DepthStep p is) (0, 0) (n, depth)

/- An instruction may be executed at a depth. -/
def SafeAt
    (p : ConstantPool)
    (limit : UInt16)
    (is : List Instruction)
    (n depth : Nat) : Prop :=
  ∃ i pops pushes, is[n]? = some i ∧
    i.effect? p = some (pops, pushes) ∧
    pops ≤ depth ∧
    depth - pops + pushes ≤ limit.toNat ∧
    (i.opcode.isTerminator = false → n + 1 < is.length)

/-
  Every configuration on every path is safe, and all paths to
  a position arrive there with the same depth.
-/
structure DepthSafe
    (p : ConstantPool)
    (limit : UInt16)
    (is : List Instruction) : Prop where
  safe : ∀ n depth, DepthReached p is n depth →
    SafeAt p limit is n depth
  single : ∀ n depth depth', DepthReached p is n depth →
    DepthReached p is n depth' → depth = depth'

------------------------------------------------------------
-- Positions by Offset
------------------------------------------------------------

namespace CodeMap

theorem getElem?_foldl_insert
    (pairs : List (Nat × Nat))
    (m : Std.HashMap Nat Nat)
    (hDistinct : pairs.Pairwise fun a b => a.1 ≠ b.1)
    {k v : Nat}
    (hIn : (k, v) ∈ pairs ∨
      m[k]? = some v ∧ ∀ a ∈ pairs, a.1 ≠ k) :
    (pairs.foldl (fun m (offset, n) => m.insert offset n) m)[k]? =
      some v := by
  induction pairs generalizing m with
  | nil =>
      rcases hIn with hNone | ⟨hOld, _⟩
      · cases hNone
      · exact hOld
  | cons a pairs ih =>
      rcases List.pairwise_cons.mp hDistinct with ⟨hHead, hTail⟩
      refine ih (m.insert a.1 a.2) hTail ?_
      rcases hIn with hIn | ⟨hOld, hOther⟩
      · rcases List.mem_cons.mp hIn with rfl | hLater
        · refine Or.inr ⟨by simp, ?_⟩
          intro b hb
          exact (hHead b hb).symm
        · exact Or.inl hLater
      · refine Or.inr ⟨?_, fun b hb =>
          hOther b (List.mem_cons_of_mem a hb)⟩
        have hNe := hOther a List.mem_cons_self
        simp [Std.HashMap.getElem?_insert, hNe, hOld]

theorem mem_of_getElem?_foldl_insert
    (pairs : List (Nat × Nat))
    (m : Std.HashMap Nat Nat)
    {k v : Nat}
    (hFound :
      (pairs.foldl (fun m (offset, n) => m.insert offset n) m)[k]? =
        some v) :
    (k, v) ∈ pairs ∨ m[k]? = some v := by
  induction pairs generalizing m with
  | nil => exact Or.inr hFound
  | cons a pairs ih =>
      rcases ih (m.insert a.1 a.2) hFound with hLater | hHere
      · exact Or.inl (List.mem_cons_of_mem a hLater)
      · rw [Std.HashMap.getElem?_insert] at hHere
        by_cases hSame : a.1 = k
        · rw [if_pos (beq_iff_eq.mpr hSame)] at hHere
          cases hHere
          rw [← hSame]
          exact Or.inl List.mem_cons_self
        · rw [if_neg (by simpa using hSame)] at hHere
          exact Or.inr hHere

/- Instructions are found by their offsets. -/
theorem positions_of_pairwise
    {is : List Instruction}
    (hOffsets : is.Pairwise fun i j => i.offset < j.offset)
    {n : Nat}
    {i : Instruction}
    (hAt : is[n]? = some i) :
    (ofList is).positions[i.offset]? = some n := by
  refine getElem?_foldl_insert _ _ ?_ (Or.inl ?_)
  · have hFirst := List.zipIdx_map_fst 0 is
    rw [← hFirst, List.pairwise_map] at hOffsets
    rw [List.pairwise_map]
    exact hOffsets.imp Nat.ne_of_lt
  · refine List.mem_map.mpr ⟨(i, n), ?_, rfl⟩
    exact List.mem_zipIdx_iff_getElem?.mpr hAt

/- And nothing else is found. -/
theorem getElem?_of_positions
    {is : List Instruction}
    {x n : Nat}
    (hFound : (ofList is).positions[x]? = some n) :
    ∃ i, is[n]? = some i ∧ i.offset = x := by
  rcases mem_of_getElem?_foldl_insert _ _ hFound with hIn | hNone
  · rcases List.mem_map.mp hIn with ⟨⟨i, k⟩, hPair, hSame⟩
    cases hSame
    exact ⟨i, List.mem_zipIdx_iff_getElem?.mp hPair, rfl⟩
  · simp at hNone

/- A jump goes to the instruction at its target. -/
theorem targetOf?_eq_some_iff
    {is : List Instruction}
    (hOffsets : is.Pairwise fun i j => i.offset < j.offset)
    {i : Instruction}
    {k : Nat} :
    (ofList is).targetOf? i = some k ↔
      ∃ j, is[k]? = some j ∧ i.target? = some (j.offset : Int) := by
  unfold targetOf?
  constructor
  · intro hTarget
    rcases Option.bind_eq_some_iff.mp hTarget with ⟨t, ht, hFound⟩
    by_cases hSign : 0 ≤ t
    · rw [if_pos hSign] at hFound
      rcases getElem?_of_positions hFound with ⟨j, hj, hOffset⟩
      refine ⟨j, hj, ?_⟩
      rw [ht, hOffset, Int.toNat_of_nonneg hSign]
    · rw [if_neg hSign] at hFound
      cases hFound
  · rintro ⟨j, hj, hTarget⟩
    have hFound := positions_of_pairwise hOffsets hj
    simpa [hTarget] using hFound

theorem checkTarget_eq_ok_iff
    {is : List Instruction}
    (hOffsets : is.Pairwise fun i j => i.offset < j.offset)
    {i : Instruction} :
    (ofList is).checkTarget i = .ok () ↔
      ∀ t, i.target? = some t → ∃ j ∈ is, (j.offset : Int) = t := by
  unfold checkTarget
  cases hTarget : i.target? with
  | none => simp
  | some t =>
      have hStart : ((ofList is).targetOf? i).isSome ↔
          ∃ j ∈ is, (j.offset : Int) = t := by
        rw [Option.isSome_iff_exists]
        constructor
        · rintro ⟨k, hk⟩
          rcases (targetOf?_eq_some_iff hOffsets).mp hk with
            ⟨j, hj, hThere⟩
          rw [hTarget] at hThere
          cases hThere
          exact ⟨j, List.mem_of_getElem? hj, rfl⟩
        · rintro ⟨j, hIn, rfl⟩
          rcases List.getElem?_of_mem hIn with ⟨k, hk⟩
          exact ⟨k, (targetOf?_eq_some_iff hOffsets).mpr
            ⟨j, hk, hTarget⟩⟩
      dsimp only
      split
      case isTrue hFound => simp [hStart.mp hFound]
      case isFalse hLost =>
          rw [hStart] at hLost
          simp [hLost]

end CodeMap

------------------------------------------------------------
-- Instructions by Themselves
------------------------------------------------------------

namespace Instruction

/- The constant that an instruction names has the right sort. -/
def ConstantFits
    (p : ConstantPool)
    (i : Instruction) : Prop :=
  ∀ index, i.constant? = some index →
    ∃ c, p.get? index = some c ∧ acceptsConstant i.opcode c

/- The local that an instruction uses is in range. -/
def LocalFits
    (limit : UInt16)
    (i : Instruction) : Prop :=
  ∀ slot width, i.slot? = some (slot, width) →
    slot + width ≤ limit.toNat

theorem checkConstant_eq_ok_iff
    {p : ConstantPool}
    {i : Instruction} :
    i.checkConstant p = .ok () ↔ i.ConstantFits p := by
  unfold checkConstant ConstantFits
  cases i.constant? with
  | none => simp
  | some index =>
      cases hGet : p.get? index with
      | none => simp [hGet]
      | some c => simp [hGet]

theorem checkLocal_eq_ok_iff
    {limit : UInt16}
    {i : Instruction} :
    i.checkLocal limit = .ok () ↔ i.LocalFits limit := by
  unfold checkLocal LocalFits
  cases i.slot? with
  | none => simp
  | some place =>
      rcases place with ⟨slot, width⟩
      simp

end Instruction

------------------------------------------------------------
-- Exploring
------------------------------------------------------------

namespace CodeMap

/- The depth behind an instruction is known just if it is safe. -/
theorem depthAfter_eq_ok_iff
    {p : ConstantPool}
    {limit : UInt16}
    {i : Instruction}
    {depth after : Nat} :
    depthAfter p limit i depth = .ok after ↔
      ∃ pops pushes, i.effect? p = some (pops, pushes) ∧
        pops ≤ depth ∧ after = depth - pops + pushes ∧
        after ≤ limit.toNat := by
  unfold depthAfter
  cases hEffect : i.effect? p with
  | none => simp
  | some effect =>
      rcases effect with ⟨pops, pushes⟩
      dsimp only
      by_cases hEnough : depth < pops
      · rw [if_pos hEnough]
        simp only [Option.some.injEq, Prod.mk.injEq, reduceCtorEq,
          false_iff]
        rintro ⟨_, _, ⟨rfl, rfl⟩, hLe, _⟩
        omega
      · rw [if_neg hEnough]
        by_cases hRoom : limit.toNat < depth - pops + pushes
        · rw [if_pos hRoom]
          simp only [Option.some.injEq, Prod.mk.injEq, reduceCtorEq,
            false_iff]
          rintro ⟨_, _, ⟨rfl, rfl⟩, _, rfl, hLe⟩
          omega
        · rw [if_neg hRoom]
          constructor
          · intro hSame
            cases hSame
            exact ⟨pops, pushes, rfl, by omega, rfl, by omega⟩
          · rintro ⟨_, _, hSame, _, rfl, _⟩
            cases hSame
            rfl

/- The successors are known just if the code does not end. -/
theorem successors_eq_ok_iff
    {is : List Instruction}
    {n : Nat}
    {i : Instruction}
    {next : List Nat} :
    successors (ofList is) n i = .ok next ↔
      (i.opcode.isTerminator = false → n + 1 < is.length) ∧
      next = (if i.opcode.isTerminator then [] else [n + 1]) ++
        ((ofList is).targetOf? i).toList := by
  unfold successors
  cases i.opcode.isTerminator with
  | true => simp [eq_comm]
  | false =>
      by_cases hMore : n + 1 < is.length
      · simp [ofList, hMore, eq_comm]
      · simp [ofList, hMore]

/- The map has the instructions of the list in their places. -/
theorem getElem?_of_instructions
    {is : List Instruction}
    {n : Nat}
    {i : Instruction}
    (hAt : (ofList is).instructions[n]? = some i) :
    is[n]? = some i := by
  simpa [ofList] using hAt

/- What may follow an instruction is one of the list. -/
theorem lt_length_of_mem_successors
    {is : List Instruction}
    {n k : Nat}
    {i : Instruction}
    {next : List Nat}
    (hOffsets : is.Pairwise fun i j => i.offset < j.offset)
    (hNext : successors (ofList is) n i = .ok next)
    (hIn : k ∈ next) :
    k < is.length := by
  rcases successors_eq_ok_iff.mp hNext with ⟨hMore, rfl⟩
  rcases List.mem_append.mp hIn with hBehind | hThere
  · split at hBehind
    case isTrue => cases hBehind
    case isFalse hGoesOn =>
        rw [List.mem_singleton.mp hBehind]
        exact hMore (by simpa using hGoesOn)
  · rw [Option.mem_toList] at hThere
    rcases (targetOf?_eq_some_iff hOffsets).mp hThere with
      ⟨j, hj, _⟩
    exact (List.getElem?_eq_some_iff.mp hj).1

/-
  A set of configurations that is safe, closed under steps,
  and has one depth at each position holds nothing that an
  exploration inside of it could object to.
-/
theorem explore_of_closed
    {p : ConstantPool}
    {limit : UInt16}
    {is : List Instruction}
    {R : Nat → Nat → Prop}
    (hClosed : ∀ {n depth : Nat} {i : Instruction},
      is[n]? = some i → R n depth →
      ∃ after next, depthAfter p limit i depth = .ok after ∧
        successors (ofList is) n i = .ok next ∧
        ∀ k ∈ next, R k after)
    (hSingle : ∀ {n depth depth' : Nat},
      R n depth → R n depth' → depth = depth')
    (depths : Array (Option Nat))
    (work : List (Nat × Nat))
    (hDepths : ∀ n d, depths[n]? = some (some d) → R n d)
    (hWork : ∀ x ∈ work, R x.1 x.2) :
    explore (ofList is) p limit depths work = .ok () := by
  fun_induction explore (ofList is) p limit depths work with
  | case1 => rfl
  | case2 depths position depth work hNone ih =>
      exact ih hDepths fun x hx =>
        hWork x (List.mem_cons_of_mem _ hx)
  | case3 depths position work i hi hLt seen hSeen ih =>
      exact ih hDepths fun x hx =>
        hWork x (List.mem_cons_of_mem _ hx)
  | case4 depths position depth work i hi hLt seen hSeen hDiffer =>
      have hBefore := hDepths position seen
        (Array.getElem?_eq_some_iff.mpr ⟨hLt, hSeen⟩)
      have hNow := hWork (position, depth) List.mem_cons_self
      exact absurd (hSingle hBefore hNow) hDiffer
  | case5 depths position depth work i hi hLt hNew e hError =>
      have hNow := hWork (position, depth) List.mem_cons_self
      rcases hClosed (getElem?_of_instructions hi) hNow with
        ⟨after, next, hAfter, _⟩
      rw [hAfter] at hError
      cases hError
  | case6 depths position depth work i hi hLt hNew after hAfter e
      hError =>
      have hNow := hWork (position, depth) List.mem_cons_self
      rcases hClosed (getElem?_of_instructions hi) hNow with
        ⟨_, next, _, hNext, _⟩
      rw [hNext] at hError
      cases hError
  | case7 depths position depth work i hi hLt hNew after hAfter
      next hNext ih =>
      have hNow := hWork (position, depth) List.mem_cons_self
      rcases hClosed (getElem?_of_instructions hi) hNow with
        ⟨after', next', hAfter', hNext', hReached⟩
      rw [hAfter] at hAfter'
      rw [hNext] at hNext'
      cases hAfter'
      cases hNext'
      refine ih ?_ ?_
      · intro n d hd
        rw [Array.getElem?_set] at hd
        split at hd
        case isTrue hSame =>
            cases hd
            rw [← hSame]
            exact hNow
        case isFalse => exact hDepths n d hd
      · intro x hx
        rcases List.mem_append.mp hx with hNew | hOld
        · rcases List.mem_map.mp hNew with ⟨n, hn, rfl⟩
          exact hReached n hn
        · exact hWork x (List.mem_cons_of_mem _ hOld)
  | case8 depths position depth work i hi hOut ih =>
      exact ih hDepths fun x hx =>
        hWork x (List.mem_cons_of_mem _ hx)

/-
  A table of depths settles a configuration: the instruction
  there is fine, and the table has the depth behind it at all
  positions that may follow.
-/
def Settles
    (p : ConstantPool)
    (limit : UInt16)
    (is : List Instruction)
    (table : Nat → Option Nat)
    (n depth : Nat) : Prop :=
  ∃ i after next, is[n]? = some i ∧
    depthAfter p limit i depth = .ok after ∧
    successors (ofList is) n i = .ok next ∧
    ∀ k ∈ next, table k = some after

/-
  An exploration that finds nothing wrong leaves a table that
  keeps what was known, has all that was to be visited, and
  settles whatever it adds.
-/
theorem closed_of_explore
    {p : ConstantPool}
    {limit : UInt16}
    {is : List Instruction}
    (hOffsets : is.Pairwise fun i j => i.offset < j.offset)
    (depths : Array (Option Nat))
    (work : List (Nat × Nat))
    (hSize : depths.size = is.length)
    (hWork : ∀ x ∈ work, x.1 < is.length)
    (hDone : explore (ofList is) p limit depths work = .ok ()) :
    ∃ table : Nat → Option Nat,
      (∀ n d, depths[n]? = some (some d) → table n = some d) ∧
      (∀ x ∈ work, table x.1 = some x.2) ∧
      ∀ n d, table n = some d →
        depths[n]? = some (some d) ∨
          Settles p limit is table n d := by
  fun_induction explore (ofList is) p limit depths work with
  | case1 depths =>
      refine ⟨fun n => (depths[n]?).join, ?_, ?_, ?_⟩
      · intro n d hd
        simp [hd]
      · intro x hx
        cases hx
      · intro n d hd
        exact Or.inl (Option.join_eq_some_iff.mp hd)
  | case2 depths position depth work hNone ih =>
      have hLt := hWork _ List.mem_cons_self
      simp [ofList] at hNone
      omega
  | case3 depths position work i hi hLt seen hSeen ih =>
      rcases ih hSize (fun x hx =>
        hWork x (List.mem_cons_of_mem _ hx)) hDone with
        ⟨table, hKept, hHas, hSettled⟩
      refine ⟨table, hKept, ?_, hSettled⟩
      intro x hx
      rcases List.mem_cons.mp hx with rfl | hTail
      · exact hKept _ _
          (Array.getElem?_eq_some_iff.mpr ⟨hLt, hSeen⟩)
      · exact hHas x hTail
  | case4 => cases hDone
  | case5 => cases hDone
  | case6 => cases hDone
  | case7 depths position depth work i hi hLt hNew after hAfter
      next hNext ih =>
      have hBounds : ∀ x ∈ next.map (·, after) ++ work,
          x.1 < is.length := by
        intro x hx
        rcases List.mem_append.mp hx with hFresh | hOld
        · rcases List.mem_map.mp hFresh with ⟨k, hk, rfl⟩
          exact lt_length_of_mem_successors hOffsets hNext hk
        · exact hWork x (List.mem_cons_of_mem _ hOld)
      rcases ih (by simpa using hSize) hBounds hDone with
        ⟨table, hKept, hHas, hSettled⟩
      have hHere : table position = some depth :=
        hKept position depth (by simp)
      refine ⟨table, ?_, ?_, ?_⟩
      · intro n d hd
        refine hKept n d ?_
        rw [Array.getElem?_set]
        split
        case isTrue hSame =>
            rw [← hSame, Array.getElem?_eq_getElem hLt, hNew] at hd
            cases hd
        case isFalse => exact hd
      · intro x hx
        rcases List.mem_cons.mp hx with rfl | hTail
        · exact hHere
        · exact hHas x (List.mem_append_right _ hTail)
      · intro n d hd
        rcases hSettled n d hd with hOld | hFine
        · rw [Array.getElem?_set] at hOld
          split at hOld
          case isTrue hSame =>
              cases hOld
              subst hSame
              refine Or.inr ⟨i, after, next,
                getElem?_of_instructions hi, hAfter, hNext, ?_⟩
              intro k hk
              exact hHas (k, after) (List.mem_append_left _
                (List.mem_map_of_mem hk))
          case isFalse => exact Or.inl hOld
        · exact Or.inr hFine
  | case8 depths position depth work i hi hOut ih =>
      have hLt := hWork _ List.mem_cons_self
      dsimp only at hLt
      omega

/- Safe code passes the exploration. -/
theorem explore_of_depthSafe
    {p : ConstantPool}
    {limit : UInt16}
    {is : List Instruction}
    (hOffsets : is.Pairwise fun i j => i.offset < j.offset)
    (hSafe : DepthSafe p limit is) :
    explore (ofList is) p limit
      (Array.replicate is.length none) [(0, 0)] = .ok () := by
  refine explore_of_closed (R := DepthReached p is) ?_
    (hSafe.single _ _ _) _ _ ?_ ?_
  · intro n depth i hi hReached
    rcases hSafe.safe n depth hReached with
      ⟨j, pops, pushes, hj, hEffect, hEnough, hRoom, hMore⟩
    rw [hi] at hj
    cases hj
    refine ⟨_, _, depthAfter_eq_ok_iff.mpr
      ⟨pops, pushes, hEffect, hEnough, rfl, hRoom⟩,
      successors_eq_ok_iff.mpr ⟨hMore, rfl⟩, ?_⟩
    intro k hk
    rcases List.mem_append.mp hk with hBehind | hThere
    · split at hBehind
      case isTrue => cases hBehind
      case isFalse hGoesOn =>
          rw [List.mem_singleton.mp hBehind]
          have hOn : i.opcode.isTerminator = false := by
            simpa using hGoesOn
          exact hReached.tail (.next hi hEffect hEnough hOn
            (hMore hOn))
    · rw [Option.mem_toList] at hThere
      rcases (targetOf?_eq_some_iff hOffsets).mp hThere with
        ⟨j, hj, hTarget⟩
      exact hReached.tail (.jump hi hEffect hEnough hj hTarget)
  · intro n d hd
    rw [Array.getElem?_replicate] at hd
    split at hd <;> cases hd
  · intro x hx
    rw [List.mem_singleton.mp hx]
    exact Relation.ReflTransGen.refl

/-
  A table that settles all it has covers every path: along a
  path, each step leads to what is settled before it.
-/
theorem Settles.of_reached
    {p : ConstantPool}
    {limit : UInt16}
    {is : List Instruction}
    {table : Nat → Option Nat}
    (hOffsets : is.Pairwise fun i j => i.offset < j.offset)
    (hStart : table 0 = some 0)
    (hSettled : ∀ n d, table n = some d →
      Settles p limit is table n d)
    {n depth : Nat}
    (hReached : DepthReached p is n depth) :
    table n = some depth := by
  unfold DepthReached at hReached
  generalize hConfig : (n, depth) = config at hReached
  induction hReached generalizing n depth with
  | refl =>
      cases hConfig
      exact hStart
  | tail _ hStep ih =>
      subst hConfig
      cases hStep with
      | next hAt hEffect hEnough hGoesOn hMore =>
          rcases hSettled _ _ (ih rfl) with
            ⟨i, after, next, hi, hAfter, hNext, hAll⟩
          rw [hAt] at hi
          cases hi
          rcases depthAfter_eq_ok_iff.mp hAfter with
            ⟨_, _, hSame, _, rfl, _⟩
          rw [hEffect] at hSame
          cases hSame
          rcases successors_eq_ok_iff.mp hNext with ⟨_, rfl⟩
          refine hAll _ (List.mem_append_left _ ?_)
          simp [hGoesOn]
      | jump hAt hEffect hEnough hThere hTarget =>
          rcases hSettled _ _ (ih rfl) with
            ⟨i, after, next, hi, hAfter, hNext, hAll⟩
          rw [hAt] at hi
          cases hi
          rcases depthAfter_eq_ok_iff.mp hAfter with
            ⟨_, _, hSame, _, rfl, _⟩
          rw [hEffect] at hSame
          cases hSame
          rcases successors_eq_ok_iff.mp hNext with ⟨_, rfl⟩
          refine hAll _ (List.mem_append_right _ ?_)
          rw [Option.mem_toList]
          exact (targetOf?_eq_some_iff hOffsets).mpr
            ⟨_, hThere, hTarget⟩

/- Code that passes the exploration is safe. -/
theorem depthSafe_of_explore
    {p : ConstantPool}
    {limit : UInt16}
    {is : List Instruction}
    (hOffsets : is.Pairwise fun i j => i.offset < j.offset)
    (hSome : is ≠ [])
    (hDone : explore (ofList is) p limit
      (Array.replicate is.length none) [(0, 0)] = .ok ()) :
    DepthSafe p limit is := by
  rcases closed_of_explore hOffsets _ _ (by simp)
    (by simpa using List.length_pos_iff.mpr hSome) hDone with
    ⟨table, _, hHas, hSettled⟩
  have hAll : ∀ n d, table n = some d →
      Settles p limit is table n d := by
    intro n d hd
    rcases hSettled n d hd with hOld | hFine
    · rw [Array.getElem?_replicate] at hOld
      split at hOld <;> cases hOld
    · exact hFine
  have hTable : ∀ {n depth : Nat}, DepthReached p is n depth →
      table n = some depth :=
    Settles.of_reached hOffsets (hHas (0, 0) List.mem_cons_self)
      hAll
  refine ⟨?_, ?_⟩
  · intro n depth hReached
    rcases hAll n depth (hTable hReached) with
      ⟨i, after, next, hi, hAfter, hNext, _⟩
    rcases depthAfter_eq_ok_iff.mp hAfter with
      ⟨pops, pushes, hEffect, hEnough, rfl, hRoom⟩
    exact ⟨i, pops, pushes, hi, hEffect, hEnough, hRoom,
      (successors_eq_ok_iff.mp hNext).1⟩
  · intro n depth depth' hOne hOther
    have hSame := (hTable hOne).symm.trans (hTable hOther)
    exact Option.some.inj hSame

------------------------------------------------------------
-- Turns of the Loop
------------------------------------------------------------

/-
  One turn of the loop that explores: the first configuration
  still to visit is taken off, and if it is new, its depth is
  noted and what may follow is put in front.
-/
def turn
    (l : CodeMap)
    (p : ConstantPool)
    (limit : UInt16)
    (depths : Array (Option Nat))
    (position depth : Nat)
    (work : List (Nat × Nat)) :
    Except VerifyError (Array (Option Nat) × List (Nat × Nat)) :=
  match l.instructions[position]?, depths[position]? with
  | some i, some (some seen) =>
      if seen = depth then
        .ok (depths, work)
      else
        .error (.inconsistentStack i.offset seen depth)
  | some i, some none => do
      let after ← depthAfter p limit i depth
      let next ← successors l position i
      return (depths.setIfInBounds position (some depth),
        next.map (·, after) ++ work)
  | _, _ => .ok (depths, work)

/- What the loop gives within a number of turns, if it ends. -/
def loop
    (l : CodeMap)
    (p : ConstantPool)
    (limit : UInt16) :
    Nat → Array (Option Nat) → List (Nat × Nat) →
      Option (Except VerifyError Unit)
  | _, _, [] => some (.ok ())
  | 0, _, _ :: _ => none
  | turns + 1, depths, (position, depth) :: work =>
      match turn l p limit depths position depth work with
      | .error e => some (.error e)
      | .ok (depths, work) => loop l p limit turns depths work

theorem length_successors
    {l : CodeMap}
    {n : Nat}
    {i : Instruction}
    {next : List Nat}
    (hNext : successors l n i = .ok next) :
    next.length ≤ 2 := by
  have hTarget : (l.targetOf? i).toList.length ≤ 1 := by
    cases l.targetOf? i <;> simp
  unfold successors at hNext
  dsimp only at hNext
  split at hNext
  case isTrue =>
      cases hNext
      omega
  case isFalse =>
      split at hNext
      case isTrue =>
          cases hNext
          rw [List.length_cons]
          omega
      case isFalse => cases hNext

/-
  The loop ends: a turn that notes a depth puts at most two
  configurations in front, and every other turn takes one off.
  So a turn is left as long as there is a configuration to
  visit.
-/
theorem loop_eq_explore
    (l : CodeMap)
    (p : ConstantPool)
    (limit : UInt16)
    (depths : Array (Option Nat))
    (work : List (Nat × Nat))
    {turns : Nat}
    (hTurns :
      2 * depths.countP Option.isNone + work.length ≤ turns) :
    loop l p limit turns depths work =
      some (explore l p limit depths work) := by
  have hTurn : ∀ {position depth : Nat} {work : List (Nat × Nat)}
      {depths : Array (Option Nat)} {turns : Nat},
      2 * depths.countP Option.isNone +
        ((position, depth) :: work).length ≤ turns →
      ∃ rest, turns = rest + 1 ∧
        2 * depths.countP Option.isNone + work.length ≤ rest := by
    intro position depth work depths turns hLe
    rw [List.length_cons] at hLe
    exact ⟨turns - 1, by omega, by omega⟩
  fun_induction explore l p limit depths work
    generalizing turns with
  | case1 => cases turns <;> rfl
  | case2 depths position depth work hNone ih =>
      rcases hTurn hTurns with ⟨rest, rfl, hRest⟩
      simp only [loop, turn, hNone]
      exact ih hRest
  | case3 depths position work i hi hLt seen hSeen ih =>
      rcases hTurn hTurns with ⟨rest, rfl, hRest⟩
      simp only [loop, turn, hi, Array.getElem?_eq_getElem hLt,
        hSeen, if_pos]
      exact ih hRest
  | case4 depths position depth work i hi hLt seen hSeen hDiffer =>
      rcases hTurn hTurns with ⟨rest, rfl, hRest⟩
      simp only [loop, turn, hi, Array.getElem?_eq_getElem hLt,
        hSeen, if_neg hDiffer]
  | case5 depths position depth work i hi hLt hNew e hError =>
      rcases hTurn hTurns with ⟨rest, rfl, hRest⟩
      simp only [loop, turn, hi, Array.getElem?_eq_getElem hLt,
        hNew, hError, bind, Except.bind]
  | case6 depths position depth work i hi hLt hNew after hAfter e
      hError =>
      rcases hTurn hTurns with ⟨rest, rfl, hRest⟩
      simp only [loop, turn, hi, Array.getElem?_eq_getElem hLt,
        hNew, hAfter, hError, bind, Except.bind]
  | case7 depths position depth work i hi hLt hNew after hAfter
      next hNext ih =>
      rcases hTurn hTurns with ⟨rest, rfl, hRest⟩
      have hPos : 0 < depths.countP Option.isNone :=
        Array.countP_pos_iff.mpr
          ⟨depths[position], Array.getElem_mem hLt, by simp [hNew]⟩
      have hCount : (depths.set position (some depth)).countP
          Option.isNone + 1 = depths.countP Option.isNone := by
        rw [Array.countP_set]
        simp only [hNew, Option.isNone_none, Option.isNone_some]
        grind
      have hFew := length_successors hNext
      simp only [loop, turn, hi, Array.getElem?_eq_getElem hLt,
        hNew, hAfter, hNext, bind, Except.bind, pure, Except.pure,
        Array.setIfInBounds, dif_pos hLt]
      refine ih ?_
      rw [List.length_append, List.length_map]
      omega
  | case8 depths position depth work i hi hOut ih =>
      rcases hTurn hTurns with ⟨rest, rfl, hRest⟩
      simp only [loop, turn, hi,
        Array.getElem?_eq_none (Nat.le_of_not_lt hOut)]
      exact ih hRest

end CodeMap

------------------------------------------------------------
-- Method Bodies
------------------------------------------------------------

theorem forM_eq_ok_iff
    {ε α : Type}
    {f : α → Except ε PUnit}
    {xs : List α} :
    xs.forM f = .ok ⟨⟩ ↔ ∀ x ∈ xs, f x = .ok ⟨⟩ := by
  induction xs with
  | nil => simp [List.forM, pure, Except.pure]
  | cons x xs ih =>
      rw [List.forall_mem_cons, ← ih]
      simp only [List.forM, bind, Except.bind]
      cases f x with
      | error e => simp
      | ok _ => simp

/- A method body is fine just if each of its checks passes. -/
theorem CodeAttribute.verify_eq_ok_iff
    {c : CodeAttribute}
    {p : ConstantPool} :
    c.verify p = .ok () ↔
      ∃ is, decodeCode c.code = .ok is ∧ is ≠ [] ∧
        (∀ i ∈ is, (CodeMap.ofList is).checkTarget i = .ok ()) ∧
        (∀ i ∈ is, i.checkConstant p = .ok ()) ∧
        (∀ i ∈ is, i.checkLocal c.maxLocals = .ok ()) ∧
        (CodeMap.ofList is).explore p c.maxStack
          (Array.replicate is.length none) [(0, 0)] = .ok () := by
  unfold CodeAttribute.verify
  cases hDecode : decodeCode c.code with
  | error e => cases e <;> simp
  | ok is =>
      cases is with
      | nil => simp
      | cons first is =>
          simp only [Except.ok.injEq, exists_eq_left', ne_eq,
            reduceCtorEq, not_false_eq_true, true_and,
            ← forM_eq_ok_iff, ok_bind]
          constructor
          · rintro ⟨_, hTargets, _, hConstants, _, hLocals, hDone⟩
            exact ⟨hTargets, hConstants, hLocals, hDone⟩
          · rintro ⟨hTargets, hConstants, hLocals, hDone⟩
            exact ⟨_, hTargets, _, hConstants, _, hLocals, hDone⟩

/- Safe code of fitting instructions passes the check. -/
theorem CodeAttribute.verify_of_depthSafe
    {c : CodeAttribute}
    {p : ConstantPool}
    {is : List Instruction}
    (hDecode : decodeCode c.code = .ok is)
    (hSome : is ≠ [])
    (hTargets : ∀ i ∈ is, ∀ t, i.target? = some t →
      ∃ j ∈ is, (j.offset : Int) = t)
    (hConstants : ∀ i ∈ is, i.ConstantFits p)
    (hLocals : ∀ i ∈ is, i.LocalFits c.maxLocals)
    (hSafe : DepthSafe p c.maxStack is) :
    c.verify p = .ok () := by
  have hOffsets := (laidOut_of_decodeCode hDecode).pairwise
  refine verify_eq_ok_iff.mpr ⟨is, hDecode, hSome, ?_, ?_, ?_,
    CodeMap.explore_of_depthSafe hOffsets hSafe⟩
  · intro i hi
    exact (CodeMap.checkTarget_eq_ok_iff hOffsets).mpr
      (hTargets i hi)
  · intro i hi
    exact Instruction.checkConstant_eq_ok_iff.mpr (hConstants i hi)
  · intro i hi
    exact Instruction.checkLocal_eq_ok_iff.mpr (hLocals i hi)

/- Code that passes the check is safe. -/
theorem CodeAttribute.depthSafe_of_verify
    {c : CodeAttribute}
    {p : ConstantPool}
    {is : List Instruction}
    (hVerify : c.verify p = .ok ())
    (hDecode : decodeCode c.code = .ok is) :
    DepthSafe p c.maxStack is := by
  rcases verify_eq_ok_iff.mp hVerify with
    ⟨is', hDecode', hSome, -, -, -, hDone⟩
  rw [hDecode] at hDecode'
  cases hDecode'
  exact CodeMap.depthSafe_of_explore
    (laidOut_of_decodeCode hDecode).pairwise hSome hDone

/-
  The check of a method body accepts just the code that is
  safe along all paths, and the loop that explores it ends
  within two turns for each instruction and one more.
-/
theorem CodeAttribute.verify_iff_depthSafe
    (c : CodeAttribute)
    (p : ConstantPool) :
    (c.verify p = .ok () ↔
      ∃ is, decodeCode c.code = .ok is ∧ is ≠ [] ∧
        (∀ i ∈ is, ∀ t, i.target? = some t →
          ∃ j ∈ is, (j.offset : Int) = t) ∧
        (∀ i ∈ is, i.ConstantFits p) ∧
        (∀ i ∈ is, i.LocalFits c.maxLocals) ∧
        DepthSafe p c.maxStack is) ∧
      ∀ is : List Instruction,
        (CodeMap.ofList is).loop p c.maxStack (2 * is.length + 1)
            (Array.replicate is.length none) [(0, 0)] =
          some ((CodeMap.ofList is).explore p c.maxStack
            (Array.replicate is.length none) [(0, 0)]) := by
  refine ⟨⟨?_, ?_⟩, ?_⟩
  · intro hVerify
    rcases verify_eq_ok_iff.mp hVerify with
      ⟨is, hDecode, hSome, hTargets, hConstants, hLocals, hDone⟩
    have hOffsets := (laidOut_of_decodeCode hDecode).pairwise
    refine ⟨is, hDecode, hSome, ?_, ?_, ?_,
      CodeMap.depthSafe_of_explore hOffsets hSome hDone⟩
    · intro i hi
      exact (CodeMap.checkTarget_eq_ok_iff hOffsets).mp
        (hTargets i hi)
    · intro i hi
      exact Instruction.checkConstant_eq_ok_iff.mp
        (hConstants i hi)
    · intro i hi
      exact Instruction.checkLocal_eq_ok_iff.mp (hLocals i hi)
  · rintro ⟨is, hDecode, hSome, hTargets, hConstants, hLocals,
      hSafe⟩
    exact verify_of_depthSafe hDecode hSome hTargets hConstants
      hLocals hSafe
  · intro is
    refine CodeMap.loop_eq_explore _ _ _ _ _ ?_
    have hCount : (Array.replicate is.length
        (none : Option Nat)).countP Option.isNone ≤ is.length :=
      Nat.le_trans Array.countP_le_size (by simp)
    rw [List.length_singleton]
    omega

end Stratagem

import Stratagem.Proofs.Assembly.Chart

/-
  Code that starts with null checks.

  A check loads a slot, jumps over a block if it finds an
  object, and throws an exception in the block.  If code starts
  with such checks, every way to what follows them has passed
  them all.

  Key definitions include:
    * `Runs`
    * `NullCheck`
    * `NullCheck.PassedIn`
    * `NullCheck.Dominates`
    * `NullCheck.Guard`
    * `Straight`

  Main declarations:
    * `NullCheck.stage_of_runs`
    * `NullCheck.dominates_rest`
    * `NullCheck.dominates_loads`
    * `Spelled.check`
-/

namespace Stratagem

open Jvm

------------------------------------------------------------
-- Ways Through Code
------------------------------------------------------------

/- Control can go from a point to an offset. -/
def CodePoint.LeadsTo
    (q : CodePoint)
    (x : Nat) : Prop :=
  q.action.isTerminator = false ∧ q.next = x ∨
    q.action.isJump = true ∧ q.target = some x

/-
  The offsets on a way through code, the last one first.  The
  instructions behind the head were run, the one at the head
  comes next.
-/
inductive Runs
    (code : List CodePoint) : List Nat → Prop
  | start : Runs code [0]
  | step
      {q : CodePoint}
      {x : Nat}
      {past : List Nat}
      (hBefore : Runs code (q.offset :: past))
      (hIn : q ∈ code)
      (hLeads : q.LeadsTo x) :
      Runs code (x :: q.offset :: past)

/- Code behind other code starts where the other ends. -/
theorem Chained.split
    {start stop : Nat}
    {code code' : List CodePoint}
    (hChained : Chained start (code ++ code') stop) :
    ∃ mid, Chained start code mid ∧ Chained mid code' stop := by
  induction code generalizing start with
  | nil => exact ⟨start, rfl, hChained⟩
  | cons q code ih =>
      rcases hChained with ⟨hStart, hLess, hRest⟩
      rcases ih hRest with ⟨mid, hFirst, hNext⟩
      exact ⟨mid, ⟨hStart, hLess, hFirst⟩, hNext⟩

------------------------------------------------------------
-- Checks
------------------------------------------------------------

/- The exception that a check throws. -/
def nullPointerException : String :=
  "java/lang/NullPointerException"

/-
  A check of a slot, with the text of its exception and the
  offsets of its instructions.
-/
structure NullCheck where
  slot : Nat
  message : String
  load : Nat
  test : Nat
  make : Nat
  copy : Nat
  text : Nat
  init : Nat
  raise : Nat
  stop : Nat

namespace NullCheck

/-
  The slot is loaded, and an object leads behind the check.
  Otherwise an exception is made from the text and thrown.
-/
def points
    (k : NullCheck) : List CodePoint :=
  [{ offset := k.load
     next := k.test
     action := .load .ref k.slot },
   { offset := k.test
     next := k.make
     action := .jump .ifNonNull
     target := some k.stop },
   { offset := k.make
     next := k.copy
     action := .new k.make nullPointerException },
   { offset := k.copy
     next := k.text
     action := .dup },
   { offset := k.text
     next := k.init
     action := .push (.string k.message) },
   { offset := k.init
     next := k.raise
     action := .invoke .special
       (.ofCall .special nullPointerException "<init>"
         "(Ljava/lang/String;)V") },
   { offset := k.raise
     next := k.stop
     action := .throw }]

/- What is checked, and what the exception says. -/
def subject
    (k : NullCheck) : Nat × String :=
  (k.slot, k.message)

theorem map_slot
    (checks : List NullCheck) :
    checks.map slot = (checks.map subject).map Prod.fst := by
  rw [List.map_map]
  rfl

/- The slot was loaded and tested, and held an object. -/
def PassedIn
    (k : NullCheck)
    (path : List Nat) : Prop :=
  [k.stop, k.test, k.load] <:+: path

/- Every way to an offset has passed the check. -/
def Dominates
    (k : NullCheck)
    (code : List CodePoint)
    (x : Nat) : Prop :=
  ∀ past, Runs code (x :: past) → k.PassedIn (x :: past)

/- The instructions of a check follow one another. -/
structure Ordered
    (k : NullCheck) : Prop where
  load_lt : k.load < k.test
  test_lt : k.test < k.make
  make_lt : k.make < k.copy
  copy_lt : k.copy < k.text
  text_lt : k.text < k.init
  init_lt : k.init < k.raise
  raise_lt : k.raise < k.stop

variable {k : NullCheck} {checks : List NullCheck}
variable {start stop x : Nat} {past : List Nat} {q : CodePoint}
variable {before after rest : List CodePoint}

theorem chained_iff :
    Chained start k.points stop ↔
      k.load = start ∧ k.Ordered ∧ k.stop = stop := by
  constructor
  · rintro ⟨h₁, h₂, -, h₃, -, h₄, -, h₅, -, h₆, -, h₇, -, h₈, h₉⟩
    exact ⟨h₁, ⟨h₂, h₃, h₄, h₅, h₆, h₇, h₈⟩, h₉⟩
  · rintro ⟨h₁, ⟨h₂, h₃, h₄, h₅, h₆, h₇, h₈⟩, h₉⟩
    exact ⟨h₁, h₂, rfl, h₃, rfl, h₄, rfl, h₅, rfl, h₆, rfl, h₇,
      rfl, h₈, h₉⟩

/- Where the points of a check lead. -/
theorem leadsTo_cases
    (hOrdered : k.Ordered)
    (hIn : q ∈ k.points)
    (hLeads : q.LeadsTo x) :
    q.offset = k.load ∧ x = k.test ∨
      q.offset = k.test ∧ (x = k.make ∨ x = k.stop) ∨
      k.test < q.offset ∧ k.test < x ∧ x < k.stop := by
  rcases hOrdered with ⟨h₁, h₂, h₃, h₄, h₅, h₆, h₇⟩
  simp only [points, List.mem_cons, List.not_mem_nil, or_false]
    at hIn
  rcases hIn with rfl | rfl | rfl | rfl | rfl | rfl | rfl <;>
    simp [CodePoint.LeadsTo, Action.isTerminator, Action.isJump]
      at hLeads <;>
    dsimp only <;>
    omega

theorem PassedIn.cons
    {path : List Nat}
    (hPassed : k.PassedIn path)
    (x : Nat) :
    k.PassedIn (x :: path) :=
  hPassed.trans (List.suffix_cons x path).isInfix

------------------------------------------------------------
-- Dominance
------------------------------------------------------------

/- Where a way can be, as far as one check is concerned. -/
inductive Stage
    (k : NullCheck) : Nat → List Nat → Prop
  | waiting
      {x : Nat}
      {past : List Nat}
      (hEarly : x ≤ k.load) :
      Stage k x past
  | testing
      {past : List Nat} :
      Stage k k.test (k.load :: past)
  | throwing
      {x : Nat}
      {past : List Nat}
      (hBehind : k.test < x)
      (hInside : x < k.stop) :
      Stage k x past
  | passed
      {x : Nat}
      {past : List Nat}
      (hPassed : k.PassedIn (x :: past)) :
      Stage k x past

/- A way that is behind a check has passed it. -/
theorem Stage.passedIn
    (hStage : Stage k x past)
    (hOrdered : k.Ordered)
    (hBehind : k.stop ≤ x) :
    k.PassedIn (x :: past) := by
  rcases hOrdered with ⟨h₁, h₂, h₃, h₄, h₅, h₆, h₇⟩
  cases hStage with
  | waiting hEarly => omega
  | testing => omega
  | throwing _ hInside => omega
  | passed hPassed => exact hPassed

/- A way to the test that goes on behind the check. -/
theorem Stage.passes
    (hStage : Stage k x past)
    (hOrdered : k.Ordered)
    (hTest : x = k.test) :
    k.PassedIn (k.stop :: x :: past) := by
  have hLoad := hOrdered.load_lt
  cases hStage with
  | waiting hEarly => omega
  | testing => exact ⟨[], _, rfl⟩
  | throwing hBehind => omega
  | passed hPassed => exact hPassed.cons k.stop

/-
  Code in front of a check leads no further than to its start,
  and code behind it starts at its end.
-/
structure Around
    (k : NullCheck)
    (before after : List CodePoint) : Prop where
  ordered : k.Ordered
  early : ∀ q ∈ before, ∀ x, q.LeadsTo x → x ≤ k.load
  late : ∀ q ∈ after, k.stop ≤ q.offset

/- One step keeps a way in one of its stages. -/
theorem Stage.step
    (hAround : k.Around before after)
    (hStage : Stage k q.offset past)
    (hIn : q ∈ before ++ (k.points ++ after))
    (hLeads : q.LeadsTo x) :
    Stage k x (q.offset :: past) := by
  have hOrdered := hAround.ordered
  simp only [List.mem_append] at hIn
  rcases hIn with hBefore | hHere | hAfter
  · exact .waiting (hAround.early q hBefore x hLeads)
  · rcases leadsTo_cases hOrdered hHere hLeads with
      ⟨hLoad, rfl⟩ | ⟨hTest, rfl | rfl⟩ | ⟨-, hBehind, hInside⟩
    · rw [hLoad]
      exact .testing
    · rcases hOrdered with ⟨h₁, h₂, h₃, h₄, h₅, h₆, h₇⟩
      exact .throwing h₂ (by omega)
    · exact .passed (hStage.passes hOrdered hTest)
    · exact .throwing hBehind hInside
  · have hBehind := hAround.late q hAfter
    exact .passed ((hStage.passedIn hOrdered hBehind).cons x)

/- So does every way through the code. -/
theorem stage_of_runs
    (hAround : k.Around before after)
    {path : List Nat}
    (hRuns : Runs (before ++ (k.points ++ after)) path) :
    ∃ x past, path = x :: past ∧ Stage k x past := by
  induction hRuns with
  | start => exact ⟨0, [], rfl, .waiting (Nat.zero_le _)⟩
  | @step q x past _ hIn hLeads ih =>
      rcases ih with ⟨_, _, hPath, hStage⟩
      cases hPath
      exact ⟨x, _, rfl, hStage.step hAround hIn hLeads⟩

/- What follows a check is reached by passing it. -/
theorem Around.dominates
    (hAround : k.Around before after)
    (hIn : q ∈ after) :
    k.Dominates (before ++ (k.points ++ after)) q.offset := by
  intro past hRuns
  rcases stage_of_runs hAround hRuns with ⟨_, _, hPath, hStage⟩
  cases hPath
  exact hStage.passedIn hAround.ordered (hAround.late q hIn)

/- A check is left at its end or inside it. -/
theorem exists_next
    (hIn : q ∈ k.points)
    (hLeads : q.LeadsTo x) :
    ∃ r ∈ k.points, r.next = x := by
  rcases hLeads with ⟨-, hNext⟩ | ⟨-, hTarget⟩
  · exact ⟨q, hIn, hNext⟩
  · simp only [points, List.mem_cons, List.not_mem_nil, or_false]
      at hIn
    rcases hIn with rfl | rfl | hBlock
    · cases hTarget
    · cases hTarget
      exact ⟨_, List.mem_of_getLast? rfl, rfl⟩
    · rcases hBlock with rfl | rfl | rfl | rfl | rfl <;>
        cases hTarget

/- A check loads its own slot, and only at its start. -/
theorem load_of_mem
    {f : Family}
    {slot : Nat}
    (hIn : q ∈ k.points)
    (hLoad : q.action = .load f slot) :
    slot = k.slot ∧ q.offset = k.load := by
  simp only [points, List.mem_cons, List.not_mem_nil, or_false]
    at hIn
  rcases hIn with rfl | hOther
  · cases hLoad
    exact ⟨rfl, rfl⟩
  · rcases hOther with rfl | rfl | rfl | rfl | rfl | rfl <;>
      cases hLoad

/- Each of the checks that code starts with has its place. -/
theorem around_of_chained
    {ks : List NullCheck}
    (hChained : Chained 0
      (ks.flatMap points ++ (k.points ++ after)) stop) :
    k.Around (ks.flatMap points) after := by
  rcases hChained.split with ⟨mid, hBefore, hRest⟩
  rcases hRest.split with ⟨mid', hHere, hAfter⟩
  rcases chained_iff.mp hHere with ⟨rfl, hOrdered, rfl⟩
  refine ⟨hOrdered, ?_, ?_⟩
  · intro q hIn x hLeads
    rcases List.mem_flatMap.mp hIn with ⟨j, hj, hq⟩
    rcases exists_next hq hLeads with ⟨r, hr, rfl⟩
    exact (hBefore.bounds (List.mem_flatMap.mpr ⟨j, hj, hr⟩)).2.2
  · intro q hIn
    exact (hAfter.bounds hIn).1

theorem flatMap_split
    (ks ks' : List NullCheck) :
    (ks ++ k :: ks').flatMap points ++ rest =
      ks.flatMap points ++
        (k.points ++ (ks'.flatMap points ++ rest)) := by
  rw [List.flatMap_append, List.flatMap_cons, List.append_assoc,
    List.append_assoc]

/- All checks are passed before anything behind them runs. -/
theorem dominates_rest
    (hChained : Chained 0 (checks.flatMap points ++ rest) stop)
    (hCheck : k ∈ checks)
    (hIn : q ∈ rest) :
    k.Dominates (checks.flatMap points ++ rest) q.offset := by
  rcases List.append_of_mem hCheck with ⟨ks, ks', rfl⟩
  rw [flatMap_split] at hChained ⊢
  exact (around_of_chained hChained).dominates
    (List.mem_append_right _ hIn)

/- A slot is checked before it is loaded for anything else. -/
theorem dominates_loads
    {f : Family}
    (hChained : Chained 0 (checks.flatMap points ++ rest) stop)
    (hSlots : (checks.map slot).Nodup)
    (hCheck : k ∈ checks)
    (hIn : q ∈ checks.flatMap points ++ rest)
    (hLoad : q.action = .load f k.slot)
    (hOther : q.offset ≠ k.load) :
    k.Dominates (checks.flatMap points ++ rest) q.offset := by
  rcases List.append_of_mem hCheck with ⟨ks, ks', rfl⟩
  rw [flatMap_split] at hChained hIn ⊢
  rw [List.mem_append, List.mem_append] at hIn
  rcases hIn with hBefore | hHere | hAfter
  · rcases List.mem_flatMap.mp hBefore with ⟨j, hj, hq⟩
    have hSame := (load_of_mem hq hLoad).1
    rw [List.map_append, List.nodup_append] at hSlots
    exact absurd hSame.symm (hSlots.2.2 _ (List.mem_map_of_mem hj)
      _ List.mem_cons_self)
  · exact absurd (load_of_mem hHere hLoad).2 hOther
  · exact (around_of_chained hChained).dominates hAfter

/- A way can pass checks one after another. -/
theorem exists_runs
    {code : List CodePoint}
    (hChained : Chained start (checks.flatMap points) stop)
    (hPart : ∀ q ∈ checks.flatMap points, q ∈ code)
    (hRuns : Runs code (start :: past)) :
    ∃ past, Runs code (stop :: past) := by
  induction checks generalizing start past with
  | nil =>
      cases hChained
      exact ⟨past, hRuns⟩
  | cons k checks ih =>
      rw [List.flatMap_cons] at hChained hPart
      rcases hChained.split with ⟨mid, hHere, hRest⟩
      rcases chained_iff.mp hHere with ⟨rfl, -, rfl⟩
      have hTest : Runs code (k.test :: k.load :: past) :=
        .step (q := { offset := k.load, next := k.test
                      action := .load .ref k.slot }) hRuns
          (hPart _ (List.mem_append_left _ List.mem_cons_self))
          (Or.inl ⟨rfl, rfl⟩)
      have hStop : Runs code (k.stop :: k.test :: k.load :: past) :=
        .step (q := { offset := k.test, next := k.make
                      action := .jump .ifNonNull
                      target := some k.stop }) hTest
          (hPart _ (List.mem_append_left _
            (List.mem_cons_of_mem _ List.mem_cons_self)))
          (Or.inr ⟨rfl, rfl⟩)
      exact ih hRest (fun q hIn =>
        hPart q (List.mem_append_right _ hIn)) hStop

/-
  No way leads behind the checks, or to another load of a slot
  that is checked, before the check was passed.  But there is a
  way behind the checks.
-/
structure Guard
    (checks : List NullCheck)
    (rest : List CodePoint) : Prop where
  behind : ∀ k ∈ checks, ∀ q ∈ rest,
    k.Dominates (checks.flatMap points ++ rest) q.offset
  loads : ∀ k ∈ checks, ∀ q ∈ checks.flatMap points ++ rest, ∀ f,
    q.action = .load f k.slot → q.offset ≠ k.load →
      k.Dominates (checks.flatMap points ++ rest) q.offset
  passable : ∀ q, rest.head? = some q →
    ∃ past, Runs (checks.flatMap points ++ rest)
      (q.offset :: past)

theorem guard_of_chained
    (hChained : Chained 0 (checks.flatMap points ++ rest) stop)
    (hSlots : (checks.map slot).Nodup) :
    Guard checks rest := by
  refine ⟨?_, ?_, ?_⟩
  · intro k hCheck q hIn
    exact dominates_rest hChained hCheck hIn
  · intro k hCheck q hIn f hLoad hOther
    exact dominates_loads hChained hSlots hCheck hIn hLoad hOther
  · intro q hHead
    rcases hChained.split with ⟨mid, hFirst, hRest⟩
    rcases List.head?_eq_some_iff.mp hHead with ⟨more, rfl⟩
    rw [hRest.1]
    exact exists_runs hFirst
      (fun _ hIn => List.mem_append_left _ hIn) .start

end NullCheck

------------------------------------------------------------
-- Straight Code
------------------------------------------------------------

/- Points one behind another with given actions and no jumps. -/
structure Straight
    (start : Nat)
    (points : List CodePoint)
    (as : List Action)
    (stop : Nat) : Prop where
  chained : Chained start points stop
  actions : points.map CodePoint.action = as
  plain : ∀ q ∈ points, q.target = none

namespace Straight

variable {start stop : Nat} {points : List CodePoint}
variable {a : Action} {as : List Action}

theorem of_nil
    (hStraight : Straight start points [] stop) :
    points = [] ∧ start = stop := by
  cases List.map_eq_nil_iff.mp hStraight.actions
  exact ⟨rfl, hStraight.chained⟩

/- The first of the points. -/
theorem of_cons
    (hStraight : Straight start points (a :: as) stop) :
    ∃ mid rest,
      points =
        { offset := start, next := mid, action := a } :: rest ∧
      Straight mid rest as stop := by
  rcases hStraight with ⟨hChained, hActions, hPlain⟩
  rcases List.map_eq_cons_iff.mp hActions with
    ⟨⟨offset, next, action, target⟩, rest, rfl, rfl, hRest⟩
  rcases hChained with ⟨rfl, -, hChained⟩
  cases hPlain _ List.mem_cons_self
  exact ⟨next, rest, rfl, hChained, hRest, fun q hIn =>
    hPlain q (List.mem_cons_of_mem _ hIn)⟩

end Straight

/- What does not jump has no target. -/
theorem Linked.target_eq_none
    {p : ConstantPool}
    {is : List Instruction}
    {points : List CodePoint}
    {q : CodePoint}
    (hLinked : Linked p is points)
    (hIn : q ∈ points)
    (hPlain : q.action.isJump = false) :
    q.target = none := by
  rcases List.getElem?_of_mem hIn with ⟨n, hAt⟩
  rcases hLinked.instruction_of_getElem? hAt with ⟨i, -, hPoint⟩
  rcases Option.map_eq_some_iff.mp hPoint with ⟨a, hAction, rfl⟩
  have hBranch : i.opcode.isBranch = false := by
    rw [(Instruction.isTerminator_of_action hAction).2]
    exact hPlain
  have hNone : i.target? = none := by
    rw [Instruction.target?, hBranch]
    rfl
  change i.target?.bind Int.toNat? = none
  rw [hNone]
  rfl

theorem Emits.straight
    {m m' : MethodDraft}
    {as : List Action}
    {ts : List Ty}
    (hEmits : Emits m as ts m')
    (hPlain : ∀ a ∈ as, a.isJump = false) :
    ∃ points, Continues m m' points ∧
      Straight m.offset points as m'.offset := by
  rcases hEmits.continues with
    ⟨points, hContinues, hSame, hChained⟩
  refine ⟨points, hContinues, hChained, hSame, ?_⟩
  intro q hIn
  rcases hContinues with ⟨is, -, -, -, hLinked⟩
  refine hLinked.target_eq_none hIn (hPlain _ ?_)
  rw [← hSame]
  exact List.mem_map_of_mem hIn

/-
  A slot is loaded, and a jump to the label that was made last
  leads over the block that throws the exception.
-/
theorem Spelled.check
    {m m₂ m₄ : MethodDraft}
    {points : List CodePoint}
    {slot : Nat}
    {message : String}
    (hSpelled : Spelled m points)
    (hLoad : Emits { m with labels := m.labels.push {} }
      [.load .ref slot] [] m₂)
    (hBlock : Emits (m₂.pop.2.jump .ifnonnull ⟨m.labels.size⟩)
      (throwActions (m₂.offset + 3) nullPointerException message ++
        [.throw]) [] m₄) :
    ∃ k : NullCheck, k.subject = (slot, message) ∧
      Spelled (m₄.bind ⟨m.labels.size⟩) (points ++ k.points) := by
  have hPlain : ∀ a ∈ [Action.load .ref slot],
      a.isJump = false := by
    simp [Action.isJump]
  have hPlain' : ∀ a ∈ throwActions (m₂.offset + 3)
      nullPointerException message ++ [.throw],
      a.isJump = false := by
    simp [throwActions, Action.isJump]
  rcases hLoad.straight hPlain with ⟨before, hBefore, hFirst⟩
  rcases hBlock.straight hPlain' with ⟨block, hInside, hRest⟩
  have hBounds := hBlock.offset_bounds
  rw [MethodDraft.offset_jump_pop] at hRest hBounds
  have hSkips := hSpelled.skips hLoad.grown hBlock.grown
    hLoad.header hBlock.header hLoad.labels hBlock.labels
    hBefore hInside
    (by simp [throwActions] at hBounds
        omega)
  rcases hFirst.of_cons with ⟨test, _, rfl, hNone⟩
  rcases hNone.of_nil with ⟨rfl, rfl⟩
  rcases hRest.of_cons with ⟨copy, _, rfl, h₁⟩
  rcases h₁.of_cons with ⟨text, _, rfl, h₂⟩
  rcases h₂.of_cons with ⟨init, _, rfl, h₃⟩
  rcases h₃.of_cons with ⟨raise, _, rfl, h₄⟩
  rcases h₄.of_cons with ⟨stop, _, rfl, h₅⟩
  rcases h₅.of_nil with ⟨rfl, rfl⟩
  rw [List.append_assoc] at hSkips
  exact ⟨{ slot, message, load := m.offset, test := m₂.offset,
           make := m₂.offset + 3, copy, text, init, raise,
           stop := m₄.offset }, rfl, hSkips⟩

end Stratagem

import Mathlib.Algebra.Ring.Nat
import Stratagem.Lowering.Workers
import Stratagem.Proofs.Lowering.Order

/-
  Several workers do what one would do.

  However the steps of the workers are mixed, each unit is
  taken by one of them and comes to what it would come to by
  itself.  The classes that are handed over are those of the
  units, mixed, and those of one unit keep their order.

  Key definitions include:
    * `Interleaves`
    * `Workshop.Moved`
    * `Workshop.Sound`
    * `Workshop.effort`

  Main declarations:
    * `Interleaves.snoc`
    * `Workshop.Sound.moved`
    * `Workshop.Moved.effort_lt`
    * `Workshop.follow_eq_compileUnits`
-/

namespace Stratagem

------------------------------------------------------------
-- Interleavings
------------------------------------------------------------

/- A list takes its elements from the fronts of some lists. -/
inductive Interleaves
    {α : Type} : List (List α) → List α → Prop where
  | nil
      {parts : List (List α)}
      (hEmpty : ∀ part ∈ parts, part = []) :
      Interleaves parts []
  | cons
      {parts : List (List α)}
      {i : Nat}
      {x : α}
      {part xs : List α}
      (hFront : parts[i]? = some (x :: part))
      (hRest : Interleaves (parts.set i part) xs) :
      Interleaves parts (x :: xs)

namespace Interleaves

variable {α : Type} {parts : List (List α)} {part xs : List α}
  {i : Nat}

theorem getElem?_set_of_some
    (hPart : parts[i]? = some part)
    (other : List α) :
    (parts.set i other)[i]? = some other := by
  have hBound := (List.getElem?_eq_some_iff.mp hPart).1
  simp [hBound]

/- An element may be put behind one of the lists and behind all. -/
theorem snoc
    (hMixed : Interleaves parts xs)
    (hPart : parts[i]? = some part)
    (x : α) :
    Interleaves (parts.set i (part ++ [x])) (xs ++ [x]) := by
  induction hMixed generalizing part with
  | nil hEmpty =>
      have hNone := hEmpty part (List.mem_of_getElem? hPart)
      subst hNone
      refine .cons (getElem?_set_of_some hPart [x]) (.nil ?_)
      intro other hIn
      rw [List.set_set] at hIn
      rcases List.mem_or_eq_of_mem_set hIn with hIn | rfl
      · exact hEmpty other hIn
      · rfl
  | @cons parts j y own ys hFront _ ih =>
      rw [List.cons_append]
      by_cases hSame : i = j
      case pos =>
          subst hSame
          rw [hPart] at hFront
          cases hFront
          have hInner := ih (getElem?_set_of_some hPart own)
          rw [List.set_set] at hInner
          refine .cons (getElem?_set_of_some hPart _) ?_
          rwa [List.set_set]
      case neg =>
          have hKept : (parts.set j own)[i]? = some part := by
            rwa [List.getElem?_set_ne (Ne.symm hSame)]
          have hInner := ih hKept
          have hFirst : (parts.set i (part ++ [x]))[j]? =
              some (y :: own) := by
            rwa [List.getElem?_set_ne hSame]
          refine .cons hFirst ?_
          rwa [List.set_comm _ _ hSame]

/- One element more, or none. -/
theorem extend
    (hMixed : Interleaves parts xs)
    (hPart : parts[i]? = some part)
    (x : Option α) :
    Interleaves (parts.set i (part ++ x.toList))
      (xs ++ x.toList) := by
  cases x with
  | some x => exact hMixed.snoc hPart x
  | none =>
      rcases List.getElem?_eq_some_iff.mp hPart with ⟨_, rfl⟩
      simpa using hMixed

end Interleaves

------------------------------------------------------------
-- Tasks
------------------------------------------------------------

namespace Task

variable {config : Config}

/- The classes that were handed over. -/
def made : Task → List CompiledClass
  | .underway _ _ made => made
  | .finished o => o.classes

/- What a task comes to. -/
def outcome
    (config : Config) : Task → Outcome
  | .underway symbols left made =>
      let o := compileDefs config symbols left
      { o with classes := made ++ o.classes }
  | .finished o => o

/- The steps of a task that are left. -/
def effort : Task → Nat
  | .underway _ left _ => left.length + 1
  | .finished _ => 0

theorem outcome_start
    (config : Config)
    (t : Term) :
    (start config t).outcome config = t.compile config := by
  unfold start Term.compile
  cases t.project with
  | error e => rfl
  | ok p =>
      unfold Project.compile
      dsimp only
      cases config.validate with
      | error e => rfl
      | ok _ =>
          dsimp only
          cases SymbolTable.ofDecls p.decls with
          | error e => rfl
          | ok symbols => rfl

theorem made_start
    (config : Config)
    (t : Term) :
    (start config t).made = [] := by
  unfold start
  split
  case h_1 => rfl
  case h_2 =>
      split
      case h_1 => rfl
      case h_2 => split <;> rfl

/- A step of a task does not change what it comes to. -/
theorem outcome_next
    (task : Task) :
    (task.next config).2.outcome config = task.outcome config := by
  fun_cases next config task with
  | case1 => simp [outcome, compileDefs]
  | case2 symbols package d left made e hFirst =>
      simp [outcome, compileDefs, hFirst, Outcome.failed]
  | case3 symbols package d left made c hFirst =>
      simp [outcome, compileDefs, hFirst]
  | case4 => rfl

/- The class that a step makes is behind those made before. -/
theorem made_next
    (task : Task) :
    (task.next config).2.made =
      task.made ++ (task.next config).1.toList := by
  fun_cases next config task with
  | case1 => simp [made]
  | case2 => simp [made]
  | case3 => simp [made]
  | case4 => simp

theorem effort_next
    (config : Config)
    {task : Task}
    (hOpen : ∀ o, task ≠ .finished o) :
    (task.next config).2.effort < task.effort := by
  fun_cases next config task with
  | case1 => simp [effort]
  | case2 => simp [effort]
  | case3 => simp [effort]
  | case4 o => exact absurd rfl (hOpen o)

end Task

------------------------------------------------------------
-- Steps
------------------------------------------------------------

namespace Workshop

variable {config : Config} {s s' : Workshop}

/- What one step of some worker does. -/
inductive Moved
    (config : Config) : Workshop → Workshop → Prop where
  | leave
      (front back : List Worker)
      (sent : List (Nat × UnitResult))
      (held : List CompiledClass) :
      Moved config
        { queue := [], workers := front ++ .idle :: back, sent, held }
        { queue := [], workers := front ++ .gone :: back, sent, held }
  | take
      (i : Nat)
      (t : Term)
      (queue : List (Nat × Term))
      (front back : List Worker)
      (sent : List (Nat × UnitResult))
      (held : List CompiledClass) :
      Moved config
        { queue := (i, t) :: queue
          workers := front ++ .idle :: back, sent, held }
        { queue
          workers := front ++ .busy i (.start config t) :: back
          sent, held }
  | send
      (i : Nat)
      (o : Outcome)
      (queue : List (Nat × Term))
      (front back : List Worker)
      (sent : List (Nat × UnitResult))
      (held : List CompiledClass) :
      Moved config
        { queue
          workers := front ++ .busy i (.finished o) :: back
          sent, held }
        { queue
          workers := front ++ .idle :: back
          sent := sent ++ [(i, o.result)], held }
  | make
      (i : Nat)
      (task : Task)
      (hOpen : ∀ o, task ≠ .finished o)
      (queue : List (Nat × Term))
      (front back : List Worker)
      (sent : List (Nat × UnitResult))
      (held : List CompiledClass) :
      Moved config
        { queue
          workers := front ++ .busy i task :: back, sent, held }
        { queue
          workers := front ++ .busy i (task.next config).2 :: back
          sent
          held := held ++ (task.next config).1.toList }

theorem exists_split
    {workers : List Worker}
    {w : Nat}
    {worker : Worker}
    (hWorker : workers[w]? = some worker) :
    ∃ front back, workers = front ++ worker :: back ∧
      ∀ other, workers.set w other = front ++ other :: back := by
  rcases List.getElem?_eq_some_iff.mp hWorker with ⟨hBound, rfl⟩
  refine ⟨workers.take w, workers.drop (w + 1), ?_, ?_⟩
  · simp
  · intro other
    rw [List.set_eq_take_append_cons_drop, if_pos hBound]

theorem moved_of_move
    {w : Nat}
    (hMove : s.move config w = some s') :
    Moved config s s' := by
  rcases s with ⟨queue, workers, sent, held⟩
  unfold move at hMove
  split at hMove
  case h_1 => cases hMove
  case h_2 => cases hMove
  case h_3 hWorker =>
      rcases exists_split hWorker with ⟨front, back, hAll, hSet⟩
      dsimp only at hAll hSet hMove
      subst hAll
      split at hMove
      case h_1 =>
          rw [hSet] at hMove
          cases hMove
          exact .leave front back sent held
      case h_2 i t queue =>
          rw [hSet] at hMove
          cases hMove
          exact .take i t queue front back sent held
  case h_4 i o hWorker =>
      rcases exists_split hWorker with ⟨front, back, hAll, hSet⟩
      dsimp only at hAll hSet hMove
      subst hAll
      rw [hSet] at hMove
      cases hMove
      exact .send i o queue front back sent held
  case h_5 i task hOpen hWorker =>
      rcases exists_split hWorker with ⟨front, back, hAll, hSet⟩
      dsimp only at hAll hSet hMove
      subst hAll
      rw [hSet] at hMove
      cases hMove
      exact .make i task hOpen queue front back sent held

/- Whoever has not gone can take a step. -/
theorem exists_move
    (config : Config)
    (hLeft : s.isDone = false) :
    ∃ w s', s.move config w = some s' := by
  rcases List.all_eq_false.mp hLeft with ⟨worker, hIn, hThere⟩
  rcases List.getElem?_of_mem hIn with ⟨w, hWorker⟩
  refine ⟨w, ?_⟩
  unfold move
  rw [hWorker]
  cases worker with
  | gone => exact absurd rfl hThere
  | idle =>
      dsimp only
      split
      case h_1 => exact ⟨_, rfl⟩
      case h_2 => exact ⟨_, rfl⟩
  | busy i task =>
      cases task with
      | finished o => exact ⟨_, rfl⟩
      | underway symbols left made => exact ⟨_, rfl⟩

------------------------------------------------------------
-- Termination
------------------------------------------------------------

/- The steps that are left to a worker, without new units. -/
def workerEffort : Worker → Nat
  | .gone => 0
  | .idle => 1
  | .busy _ task => task.effort + 2

/- A bound on the steps that are left. -/
def effort
    (config : Config)
    (s : Workshop) : Nat :=
  (s.queue.map fun (_, t) => (Task.start config t).effort + 2).sum +
    (s.workers.map workerEffort).sum

theorem Moved.effort_lt
    (hMoved : Moved config s s') :
    s'.effort config < s.effort config := by
  cases hMoved with
  | make i task hOpen =>
      have hLess := Task.effort_next config hOpen
      simp only [effort, List.map_append, List.map_cons,
        List.sum_append, List.sum_cons, workerEffort]
      omega
  | _ =>
      simp only [effort, List.map_append, List.map_cons,
        List.map_nil, List.sum_append, List.sum_cons, List.sum_nil,
        workerEffort, Task.effort]
      omega

theorem follow_cons
    {w : Nat}
    {schedule : List Nat} :
    s.follow config (w :: schedule) = some s' ↔
      ∃ s₁, s.move config w = some s₁ ∧
        s₁.follow config schedule = some s' := by
  unfold follow
  rw [List.foldlM_cons]
  exact Option.bind_eq_some_iff

/- No schedule is longer than the bound. -/
theorem length_le_effort
    {schedule : List Nat}
    (hRun : s.follow config schedule = some s') :
    schedule.length ≤ s.effort config := by
  induction schedule generalizing s with
  | nil => exact Nat.zero_le _
  | cons w schedule ih =>
      rcases follow_cons.mp hRun with ⟨s₁, hMove, hRest⟩
      have hLess := (moved_of_move hMove).effort_lt
      have hLater := ih hRest
      rw [List.length_cons]
      omega

------------------------------------------------------------
-- What Holds at Every Step
------------------------------------------------------------

/- The unit that a worker is at. -/
def unitOf : Worker → Option Nat
  | .idle => none
  | .busy i _ => some i
  | .gone => none

/- The units that wait, that are being compiled and that are done. -/
def places
    (s : Workshop) : List Nat :=
  s.queue.map Prod.fst ++
    (s.workers.filterMap unitOf ++ s.sent.map Prod.fst)

theorem places_split
    (queue : List (Nat × Term))
    (front : List Worker)
    (worker : Worker)
    (back : List Worker)
    (sent : List (Nat × UnitResult))
    (held : List CompiledClass) :
    places ⟨queue, front ++ worker :: back, sent, held⟩ =
      (queue.map Prod.fst ++ front.filterMap unitOf) ++
        ((unitOf worker).toList ++
          (back.filterMap unitOf ++ sent.map Prod.fst)) := by
  unfold places
  rw [List.filterMap_append, List.filterMap_cons]
  cases unitOf worker <;> simp

/-
  Each unit is in one place.  `handed` has the classes that
  each has handed over, and a unit goes on to what it comes to
  by itself.
-/
structure Sound
    (config : Config)
    (units : List Term)
    (before : List CompiledClass)
    (s : Workshop)
    (handed : List (List CompiledClass)) : Prop where
  length : handed.length = units.length
  places : s.places.Perm (List.range units.length)
  waiting : ∀ i t, (i, t) ∈ s.queue →
    units[i]? = some t ∧ handed[i]? = some []
  busy : ∀ i task, .busy i task ∈ s.workers →
    ∃ t, units[i]? = some t ∧
      task.outcome config = t.compile config ∧
      handed[i]? = some task.made
  sent : ∀ i r, (i, r) ∈ s.sent →
    ∃ t, units[i]? = some t ∧ r = (t.compile config).result ∧
      handed[i]? = some (t.compile config).classes
  held : ∃ written, s.held = before ++ written ∧
    Interleaves handed written
  gone : .gone ∈ s.workers → s.queue = []

variable {units : List Term} {before : List CompiledClass}
  {handed : List (List CompiledClass)}

theorem sound_start
    (config : Config)
    (units : List Term)
    (workers : Nat)
    (before : List CompiledClass) :
    Sound config units before (start units workers before)
      (List.replicate units.length []) := by
  refine {
    length := List.length_replicate
    places := ?_
    waiting := ?_
    busy := ?_
    sent := ?_
    held := ⟨[], (List.append_nil _).symm, .nil ?_⟩
    gone := ?_ }
  · have hPlaces : (start units workers before).places =
        List.range units.length := by
      have hIdle : (List.replicate workers Worker.idle).filterMap
          unitOf = [] := by
        simp [unitOf]
      simp [Workshop.places, start, hIdle, Function.comp_def,
        List.range_eq_range']
    rw [hPlaces]
  · intro i t hIn
    rcases List.mem_map.mp hIn with ⟨⟨u, j⟩, hUnit, hSame⟩
    cases hSame
    have hUnit := List.mem_zipIdx_iff_getElem?.mp hUnit
    have hBound := (List.getElem?_eq_some_iff.mp hUnit).1
    exact ⟨hUnit, by simp [hBound]⟩
  · intro i task hIn
    cases List.eq_of_mem_replicate hIn
  · intro i r hIn
    cases hIn
  · intro part hIn
    exact List.eq_of_mem_replicate hIn
  · intro hGone
    cases List.eq_of_mem_replicate hGone

/- The unit of one worker is nowhere else. -/
theorem Sound.not_mem_elsewhere
    {i : Nat}
    {task : Task}
    {queue : List (Nat × Term)}
    {front back : List Worker}
    {sent : List (Nat × UnitResult)}
    {held : List CompiledClass}
    (hSound : Sound config units before
      ⟨queue, front ++ .busy i task :: back, sent, held⟩ handed) :
    i ∉ queue.map Prod.fst ∧
      (∀ other, .busy i other ∉ front ++ back) ∧
      i ∉ sent.map Prod.fst := by
  have hOnce := hSound.places.nodup_iff.mpr List.nodup_range
  rw [places_split, unitOf, Option.toList_some,
    List.singleton_append] at hOnce
  have hRest := (List.nodup_cons.mp
    (List.perm_middle.nodup_iff.mp hOnce)).1
  simp only [List.mem_append, not_or] at hRest
  refine ⟨hRest.1.1, ?_, hRest.2.2⟩
  intro other hIn
  rcases List.mem_append.mp hIn with hIn | hIn
  · exact hRest.1.2 (List.mem_filterMap.mpr ⟨_, hIn, rfl⟩)
  · exact hRest.2.1 (List.mem_filterMap.mpr ⟨_, hIn, rfl⟩)

theorem mem_split
    {front back : List Worker}
    {worker other : Worker} :
    worker ∈ front ++ other :: back ↔
      worker = other ∨ worker ∈ front ++ back := by
  simp only [List.mem_append, List.mem_cons]
  grind

section Steps

variable {i : Nat} {t : Term} {o : Outcome} {task : Task}
  {queue : List (Nat × Term)} {front back : List Worker}
  {sent : List (Nat × UnitResult)} {held : List CompiledClass}

/- A worker goes when no unit waits. -/
theorem Sound.leave
    (hSound : Sound config units before
      ⟨[], front ++ .idle :: back, sent, held⟩ handed) :
    Sound config units before
      ⟨[], front ++ .gone :: back, sent, held⟩ handed := by
  refine { hSound with places := ?_, busy := ?_, gone := ?_ }
  · have hPlaces := hSound.places
    rwa [places_split] at hPlaces ⊢
  · intro i task hIn
    rcases mem_split.mp hIn with hIn | hIn
    · cases hIn
    · exact hSound.busy i task (mem_split.mpr (.inr hIn))
  · intro _
    rfl

/- A worker takes the unit that waits in front. -/
theorem Sound.take
    (hSound : Sound config units before
      ⟨(i, t) :: queue, front ++ .idle :: back, sent, held⟩
      handed) :
    Sound config units before
      ⟨queue, front ++ .busy i (.start config t) :: back, sent,
        held⟩ handed := by
  have hUnit := hSound.waiting i t List.mem_cons_self
  refine { hSound with
    places := ?_, waiting := ?_, busy := ?_, gone := ?_ }
  · refine List.Perm.trans ?_ hSound.places
    rw [places_split, places_split]
    exact List.perm_middle
  · intro j u hIn
    exact hSound.waiting j u (List.mem_cons_of_mem _ hIn)
  · intro j task hIn
    rcases mem_split.mp hIn with hIn | hIn
    · cases hIn
      refine ⟨t, hUnit.1, Task.outcome_start config t, ?_⟩
      rw [Task.made_start, hUnit.2]
    · exact hSound.busy j task (mem_split.mpr (.inr hIn))
  · intro hGone
    rcases mem_split.mp hGone with hGone | hGone
    · cases hGone
    · cases hSound.gone (mem_split.mpr (.inr hGone))

/- A worker sends what came of its unit. -/
theorem Sound.send
    (hSound : Sound config units before
      ⟨queue, front ++ .busy i (.finished o) :: back, sent, held⟩
      handed) :
    Sound config units before
      ⟨queue, front ++ .idle :: back, sent ++ [(i, o.result)],
        held⟩ handed := by
  rcases hSound.busy i (.finished o)
    (mem_split.mpr (.inl rfl)) with ⟨t, hUnit, hEnd, hMade⟩
  refine { hSound with
    places := ?_, busy := ?_, sent := ?_, gone := ?_ }
  · refine List.Perm.trans ?_ hSound.places
    rw [places_split, places_split, unitOf, unitOf,
      Option.toList_some, Option.toList_none, List.nil_append,
      List.map_append, ← List.append_assoc, ← List.append_assoc]
    refine (List.perm_append_singleton i _).trans ?_
    rw [List.append_assoc]
    exact List.perm_middle.symm
  · intro j task hIn
    rcases mem_split.mp hIn with hIn | hIn
    · cases hIn
    · exact hSound.busy j task (mem_split.mpr (.inr hIn))
  · intro j r hIn
    rcases List.mem_append.mp hIn with hIn | hIn
    · exact hSound.sent j r hIn
    · cases List.mem_singleton.mp hIn
      have hEnd : o = t.compile config := hEnd
      exact ⟨t, hUnit, by rw [hEnd], by rw [hMade, ← hEnd]; rfl⟩
  · intro hGone
    rcases mem_split.mp hGone with hGone | hGone
    · cases hGone
    · exact hSound.gone (mem_split.mpr (.inr hGone))

/-
  A worker compiles a definition and hands over its class.
  What other units have handed over stays as it is.
-/
theorem Sound.make
    (hSound : Sound config units before
      ⟨queue, front ++ .busy i task :: back, sent, held⟩ handed) :
    Sound config units before
      ⟨queue, front ++ .busy i (task.next config).2 :: back, sent,
        held ++ (task.next config).1.toList⟩
      (handed.set i (task.next config).2.made) := by
  rcases hSound.busy i task
    (mem_split.mpr (.inl rfl)) with ⟨t, hUnit, hEnd, hMade⟩
  rcases hSound.not_mem_elsewhere with ⟨hQueue, hBusy, hSent⟩
  have hKept : ∀ j classes, j ≠ i →
      handed[j]? = some classes →
      (handed.set i (task.next config).2.made)[j]? =
        some classes := by
    intro j classes hOther hHanded
    rwa [List.getElem?_set_ne (Ne.symm hOther)]
  refine {
    length := by rw [List.length_set, hSound.length]
    places := ?_
    waiting := ?_
    busy := ?_
    sent := ?_
    held := ?_
    gone := ?_ }
  · have hPlaces := hSound.places
    rwa [places_split] at hPlaces ⊢
  · intro j u hIn
    rcases hSound.waiting j u hIn with ⟨hWaits, hNone⟩
    refine ⟨hWaits, hKept j [] ?_ hNone⟩
    rintro rfl
    exact hQueue (List.mem_map.mpr ⟨_, hIn, rfl⟩)
  · intro j other hIn
    rcases mem_split.mp hIn with hOwn | hElse
    · cases hOwn
      refine ⟨t, hUnit, ?_, ?_⟩
      · rw [Task.outcome_next, hEnd]
      · exact Interleaves.getElem?_set_of_some hMade _
    · rcases hSound.busy j other (mem_split.mpr (.inr hElse)) with
        ⟨u, hTheirs, hComes, hHanded⟩
      refine ⟨u, hTheirs, hComes, hKept j _ ?_ hHanded⟩
      rintro rfl
      exact hBusy other hElse
  · intro j r hIn
    rcases hSound.sent j r hIn with ⟨u, hTheirs, hResult, hHanded⟩
    refine ⟨u, hTheirs, hResult, hKept j _ ?_ hHanded⟩
    rintro rfl
    exact hSent (List.mem_map.mpr ⟨_, hIn, rfl⟩)
  · rcases hSound.held with ⟨written, hHeld, hMixed⟩
    refine ⟨written ++ (task.next config).1.toList, ?_, ?_⟩
    · rw [← List.append_assoc, ← hHeld]
    · rw [Task.made_next]
      exact hMixed.extend hMade _
  · intro hGone
    rcases mem_split.mp hGone with hGone | hGone
    · cases hGone
    · exact hSound.gone (mem_split.mpr (.inr hGone))

end Steps

/- A step of one worker keeps all of this. -/
theorem Sound.moved
    (hSound : Sound config units before s handed)
    (hMoved : Moved config s s') :
    ∃ handed', Sound config units before s' handed' := by
  cases hMoved with
  | leave front back sent held => exact ⟨handed, hSound.leave⟩
  | take i t queue front back sent held =>
      exact ⟨handed, hSound.take⟩
  | send i o queue front back sent held =>
      exact ⟨handed, hSound.send⟩
  | make i task hOpen queue front back sent held =>
      exact ⟨_, hSound.make⟩

theorem Sound.follow
    {schedule : List Nat}
    (hSound : Sound config units before s handed)
    (hRun : s.follow config schedule = some s') :
    ∃ handed', Sound config units before s' handed' := by
  induction schedule generalizing s handed with
  | nil =>
      cases hRun
      exact ⟨handed, hSound⟩
  | cons w schedule ih =>
      rcases follow_cons.mp hRun with ⟨s₁, hMove, hRest⟩
      rcases hSound.moved (moved_of_move hMove) with ⟨_, hNext⟩
      exact ih hNext hRest

theorem Moved.length_workers
    (hMoved : Moved config s s') :
    s'.workers.length = s.workers.length := by
  cases hMoved <;> simp

theorem length_workers_follow
    {schedule : List Nat}
    (hRun : s.follow config schedule = some s') :
    s'.workers.length = s.workers.length := by
  induction schedule generalizing s with
  | nil =>
      cases hRun
      rfl
  | cons w schedule ih =>
      rcases follow_cons.mp hRun with ⟨s₁, hMove, hRest⟩
      rw [ih hRest, (moved_of_move hMove).length_workers]

------------------------------------------------------------
-- Results
------------------------------------------------------------

/- Slots that nothing is put into stay, and others are filled. -/
theorem getElem?_filled
    (sent : List (Nat × UnitResult))
    (slots : List (Option UnitResult))
    (hOnce : (sent.map Prod.fst).Nodup)
    {i : Nat}
    (hBound : i < slots.length) :
    (∀ r, (i, r) ∈ sent →
      (sent.foldl put slots)[i]? = some (some r)) ∧
    (i ∉ sent.map Prod.fst →
      (sent.foldl put slots)[i]? = slots[i]?) := by
  induction sent generalizing slots with
  | nil => simp
  | cons entry sent ih =>
      rcases entry with ⟨j, own⟩
      rw [List.map_cons, List.nodup_cons] at hOnce
      have hLater := ih (put slots (j, own)) hOnce.2
        (by rwa [put, List.length_set])
      rw [List.foldl_cons]
      constructor
      · intro r hIn
        rcases List.mem_cons.mp hIn with hOwn | hIn
        · cases hOwn
          rw [hLater.2 hOnce.1, put]
          simp [hBound]
        · exact hLater.1 r hIn
      · intro hNone
        rw [List.map_cons, List.mem_cons, not_or] at hNone
        rw [hLater.2 hNone.2, put,
          List.getElem?_set_ne (Ne.symm hNone.1)]

theorem length_results
    (count : Nat)
    (s : Workshop) :
    (s.results count).length = count := by
  have hFold : ∀ (sent : List (Nat × UnitResult))
      (slots : List (Option UnitResult)),
      (sent.foldl put slots).length = slots.length := by
    intro sent
    induction sent with
    | nil =>
        intro slots
        rfl
    | cons entry sent ih =>
        intro slots
        rw [List.foldl_cons, ih, put, List.length_set]
  rw [results, hFold, List.length_replicate]

/- At the end each unit was sent once. -/
theorem Sound.sent_of_done
    (hSound : Sound config units before s handed)
    (hWorkers : s.workers ≠ [])
    (hDone : s.isDone = true) :
    (s.sent.map Prod.fst).Perm (List.range units.length) := by
  have hDone : ∀ w ∈ s.workers, w = .gone := by
    intro w hIn
    have hGone := List.all_eq_true.mp hDone w hIn
    cases w with
    | gone => rfl
    | idle => cases hGone
    | busy i task => cases hGone
  have hGone : ∀ w ∈ s.workers, unitOf w = none := by
    intro w hIn
    rw [hDone w hIn]
    rfl
  rcases List.exists_mem_of_ne_nil _ hWorkers with ⟨w, hIn⟩
  have hQueue := hSound.gone (hDone w hIn ▸ hIn)
  have hPlaces := hSound.places
  unfold Workshop.places at hPlaces
  rwa [hQueue, List.map_nil, List.nil_append,
    List.filterMap_eq_nil_iff.mpr hGone, List.nil_append] at hPlaces

/- Each unit was sent with what it comes to by itself. -/
theorem Sound.exists_sent
    (hSound : Sound config units before s handed)
    (hAll : (s.sent.map Prod.fst).Perm (List.range units.length))
    {i : Nat}
    {t : Term}
    (hUnit : units[i]? = some t) :
    (i, (t.compile config).result) ∈ s.sent ∧
      handed[i]? = some (t.compile config).classes := by
  have hBound := (List.getElem?_eq_some_iff.mp hUnit).1
  have hIn : i ∈ s.sent.map Prod.fst :=
    hAll.mem_iff.mpr (List.mem_range.mpr hBound)
  rcases List.mem_map.mp hIn with ⟨⟨j, r⟩, hSent, rfl⟩
  rcases hSound.sent j r hSent with ⟨u, hTheirs, rfl, hHanded⟩
  rw [hUnit] at hTheirs
  cases hTheirs
  exact ⟨hSent, hHanded⟩

theorem Sound.results_eq
    (hSound : Sound config units before s handed)
    (hAll : (s.sent.map Prod.fst).Perm (List.range units.length)) :
    s.results units.length =
      (compileUnits config units).map fun o => some o.result := by
  have hOnce := hAll.nodup_iff.mpr List.nodup_range
  apply List.ext_getElem?
  intro i
  cases hUnit : units[i]? with
  | none =>
      have hBeyond := List.getElem?_eq_none_iff.mp hUnit
      rw [List.getElem?_eq_none_iff.mpr, compileUnits]
      · simp [hUnit]
      · rwa [length_results]
  | some t =>
      have hBound := (List.getElem?_eq_some_iff.mp hUnit).1
      have hSent := (hSound.exists_sent hAll hUnit).1
      have hFilled := (getElem?_filled s.sent
        (List.replicate units.length none) hOnce
        (by simpa using hBound)).1 _ hSent
      rw [results, hFilled, compileUnits]
      simp [hUnit]

theorem Sound.handed_eq
    (hSound : Sound config units before s handed)
    (hAll : (s.sent.map Prod.fst).Perm (List.range units.length)) :
    handed = (compileUnits config units).map Outcome.classes := by
  apply List.ext_getElem?
  intro i
  cases hUnit : units[i]? with
  | none =>
      have hBeyond := List.getElem?_eq_none_iff.mp hUnit
      rw [List.getElem?_eq_none_iff.mpr, compileUnits]
      · simp [hUnit]
      · rwa [hSound.length]
  | some t =>
      rw [(hSound.exists_sent hAll hUnit).2, compileUnits]
      simp [hUnit]

/-
  However the steps of one or more workers are mixed, they
  come to an end, and at the end each unit has the result that
  it has by itself.  What the writer then holds is behind what
  it held before: the classes of the units, mixed, where those
  of each unit are in the order of its definitions.
-/
theorem follow_eq_compileUnits
    (config : Config)
    (units : List Term)
    (held : List CompiledClass)
    (workers : Nat)
    (hWorkers : 0 < workers)
    (schedule : List Nat)
    (s : Workshop)
    (hRun : (start units workers held).follow config schedule =
      some s) :
    schedule.length ≤ (start units workers held).effort config ∧
    (s.isDone = false → ∃ w s', s.move config w = some s') ∧
    (s.isDone = true →
      s.results units.length =
          ((compileUnits config units).map fun o =>
            some o.result) ∧
        ∃ written, s.held = held ++ written ∧
          Interleaves
            ((compileUnits config units).map Outcome.classes)
            written) ∧
    ∀ t ∈ units, t.MadeInOrder config (t.compile config) := by
  refine ⟨length_le_effort hRun, exists_move config, ?_,
    fun t _ => t.compile_madeInOrder config⟩
  intro hDone
  rcases (sound_start config units workers held).follow hRun with
    ⟨handed, hSound⟩
  have hSome : s.workers ≠ [] := by
    rw [← List.length_pos_iff, length_workers_follow hRun]
    simpa [start] using hWorkers
  have hAll := hSound.sent_of_done hSome hDone
  refine ⟨hSound.results_eq hAll, ?_⟩
  rw [← hSound.handed_eq hAll]
  exact hSound.held

end Workshop

------------------------------------------------------------
-- A Sample
------------------------------------------------------------

/- A module with the strategy that gives back its input. -/
def identityUnit : Term :=
  let any : Term := .appl "ANY" []
  let none : Term := .plain (.list [])
  let here : Term := (Term.appl "Ref" []).annotated
    [.appl "TermIndex" [.plain (.str "e"), .plain (.int 1)]]
  .appl "Module" [.plain (.str ""), .plain (.list [
    (Term.appl "StrategyDecl" [none, .plain (.str "id")]).annotated
      [.appl "OfType" [.appl "STRATEGY" [none, any, any]],
        .appl "OfDecl" [here]],
    (Term.appl "StrategyDef" [.plain (.str "id"), none,
      .plain (.str "x"),
      (Term.appl "Var" [.plain (.str "x")]).annotated
        [.appl "OfType" [any]]]).annotated
      [.appl "OfRef" [here]]])]

/-
  A worker compiles that module while another one takes a unit
  that is no module, reports it and goes.
-/
theorem twoWorkers_followed :
    let config : Config := { classVersion := 49, verify := false }
    let units : List Term := [identityUnit, .plain (.int 1)]
    ∃ s, (Workshop.start units 2 []).follow config
        [0, 1, 1, 0, 1, 0, 0, 0] = some s ∧
      s.isDone = true ∧
      s.results 2 = (compileUnits config units).map
        (fun o => some o.result) ∧
      Interleaves ((compileUnits config units).map Outcome.classes)
        s.held ∧
      s.held.length = 1 := by
  intro config units
  have hEnd : ((Workshop.start units 2 []).follow config
      [0, 1, 1, 0, 1, 0, 0, 0]).any
      (fun s => s.isDone && s.held.length == 1) = true := by
    decide +kernel
  rw [Option.any_eq_true] at hEnd
  rcases hEnd with ⟨s, hRun, hEnd⟩
  rw [Bool.and_eq_true, beq_iff_eq] at hEnd
  rcases Workshop.follow_eq_compileUnits config units [] 2
    (by decide) _ s hRun with ⟨-, -, hResults, -⟩
  rcases hResults hEnd.1 with ⟨hResults, written, hHeld, hMixed⟩
  rw [List.nil_append] at hHeld
  exact ⟨s, hRun, hEnd.1, hResults, hHeld ▸ hMixed, hEnd.2⟩

end Stratagem

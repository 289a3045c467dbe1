import Stratagem.Lowering.Compile

/-
  Compiling units with several workers.

  Workers take units from a queue.  A worker compiles one
  definition of its unit at a time and hands over the class at
  once, and in the end it sends what came of the unit.  Which
  worker goes next is up to a schedule.

  Key definitions include:
    * `Task`
    * `Task.next`
    * `Worker`
    * `Workshop`
    * `Workshop.move`
    * `Workshop.follow`
    * `Workshop.isDone`
    * `Workshop.results`
-/

namespace Stratagem

------------------------------------------------------------
-- Tasks
------------------------------------------------------------

/-
  A unit that is being compiled: the definitions that are left
  and the classes that were handed over, or what came of it.
-/
inductive Task where
  | underway
      (symbols : SymbolTable)
      (left : List (PackageName × StrategyDef))
      (made : List CompiledClass)
  | finished (o : Outcome)

namespace Task

/- A unit before its first definition. -/
def start
    (config : Config)
    (t : Term) : Task :=
  match t.project with
  | .error e => .finished (.failed e)
  | .ok p =>
      match config.validate with
      | .error e => .finished (.failed e)
      | .ok () =>
          match SymbolTable.ofDecls p.decls with
          | .error e => .finished (.failed e)
          | .ok symbols => .underway symbols p.defs []

/- Compile the next definition, and hand over its class. -/
def next
    (config : Config) : Task → Option CompiledClass × Task
  | .underway _ [] made => (none, .finished { classes := made })
  | .underway symbols ((package, d) :: left) made =>
      match compileDef config symbols package d with
      | .error e =>
          (none, .finished { classes := made, error := some e })
      | .ok c => (some c, .underway symbols left (made ++ [c]))
  | .finished o => (none, .finished o)

end Task

------------------------------------------------------------
-- Workshops
------------------------------------------------------------

/- A worker is between units, at one of them, or has gone. -/
inductive Worker where
  | idle
  | busy (index : Nat) (task : Task)
  | gone

/- Whether a worker has gone. -/
def Worker.isGone : Worker → Bool
  | .idle => false
  | .busy _ _ => false
  | .gone => true

/- What a unit is answered with. -/
abbrev UnitResult :=
  Except CompileError (List CompiledClass)

/-
  Units with their places that no worker has taken, the
  workers, the results that were sent, and the classes that
  the writer holds.
-/
structure Workshop where
  queue : List (Nat × Term)
  workers : List Worker
  sent : List (Nat × UnitResult)
  held : List CompiledClass

namespace Workshop

/- All units wait, and no worker has begun. -/
def start
    (units : List Term)
    (workers : Nat)
    (held : List CompiledClass) : Workshop where
  queue := units.zipIdx.map fun (t, index) => (index, t)
  workers := List.replicate workers .idle
  sent := []
  held

/- One step of a worker, unless it has gone. -/
def move
    (config : Config)
    (w : Nat)
    (s : Workshop) : Option Workshop :=
  match s.workers[w]? with
  | none => none
  | some .gone => none
  | some .idle =>
      match s.queue with
      | [] => some { s with workers := s.workers.set w .gone }
      | (index, t) :: queue =>
          some { s with
            queue
            workers := s.workers.set w
              (.busy index (.start config t)) }
  | some (.busy index (.finished o)) =>
      some { s with
        workers := s.workers.set w .idle
        sent := s.sent ++ [(index, o.result)] }
  | some (.busy index task) =>
      let (made, task) := task.next config
      some { s with
        workers := s.workers.set w (.busy index task)
        held := s.held ++ made.toList }

/- The steps of the workers that a schedule names in turn. -/
def follow
    (config : Config)
    (s : Workshop)
    (schedule : List Nat) : Option Workshop :=
  schedule.foldlM (fun s w => s.move config w) s

/- Whether all workers have gone. -/
def isDone
    (s : Workshop) : Bool :=
  s.workers.all Worker.isGone

/- Put a result in the place of its unit. -/
def put
    (slots : List (Option UnitResult))
    (entry : Nat × UnitResult) : List (Option UnitResult) :=
  slots.set entry.1 (some entry.2)

/- The results that were sent, in the order of the units. -/
def results
    (count : Nat)
    (s : Workshop) : List (Option UnitResult) :=
  s.sent.foldl put (List.replicate count none)

end Workshop

end Stratagem

import Stratagem.Lowering.StrategyClass
import Stratagem.Program.OfTerm

/-
  Compiling projects.

  All declarations are entered first, and then each definition
  becomes a class.  The first definition that cannot be
  compiled ends the run; the classes before it are made.

  Key definitions include:
    * `Outcome`
    * `Project.compile`
    * `Term.compile`
    * `compileText`
    * `compileUnits`
-/

namespace Stratagem

------------------------------------------------------------
-- Outcomes
------------------------------------------------------------

/- The classes that were made, and what ended the run early. -/
structure Outcome where
  classes : List CompiledClass := []
  error : Option CompileError := none

namespace Outcome

/- A run that made nothing. -/
def failed
    (e : CompileError) : Outcome :=
  { error := some e }

/- All classes, or what ended the run early. -/
def result
    (o : Outcome) : Except CompileError (List CompiledClass) :=
  match o.error with
  | some e => .error e
  | none => .ok o.classes

end Outcome

------------------------------------------------------------
-- Projects
------------------------------------------------------------

/- The declaration that a definition is for. -/
def SymbolTable.declarationOf
    (t : SymbolTable)
    (d : StrategyDef) : Except CompileError StrategyDecl :=
  match d.pointer with
  | some p =>
      match t.strategy? p with
      | some decl => .ok decl
      | none =>
          .error (.unresolved
            s!"declaration {p.display} of {d.name.display}")
  | none =>
      match (t.named? d.name).bind Decl.strategy? with
      | some decl => .ok decl
      | none =>
          .error (.unresolved
            s!"declaration of {d.name.display}")

/- The class of a definition in a package. -/
def compileDef
    (config : Config)
    (symbols : SymbolTable)
    (package : PackageName)
    (d : StrategyDef) : Except CompileError CompiledClass := do
  let decl ← symbols.declarationOf d
  Context.compileStrategy { symbols, config, package } decl d

/- The classes of definitions, up to the first that has none. -/
def compileDefs
    (config : Config)
    (symbols : SymbolTable) :
    List (PackageName × StrategyDef) → Outcome
  | [] => {}
  | (package, d) :: rest =>
      match compileDef config symbols package d with
      | .error e => .failed e
      | .ok compiled =>
          let o := compileDefs config symbols rest
          { o with classes := compiled :: o.classes }

/- Compile a project. -/
def Project.compile
    (config : Config)
    (p : Project) : Outcome :=
  match config.validate with
  | .error e => .failed e
  | .ok () =>
      match SymbolTable.ofDecls p.decls with
      | .error e => .failed e
      | .ok symbols => compileDefs config symbols p.defs

------------------------------------------------------------
-- Terms and Texts
------------------------------------------------------------

/- Compile the project that a term spells. -/
def Term.compile
    (config : Config)
    (t : Term) : Outcome :=
  match t.project with
  | .error e => .failed e
  | .ok p => p.compile config

/- Compile the project that a text spells. -/
def compileText
    (config : Config)
    (text : String) : Outcome :=
  match Term.read text with
  | .error e => .failed (.format e)
  | .ok t => t.compile config

/- Compile units that know nothing of each other. -/
def compileUnits
    (config : Config)
    (units : List Term) : List Outcome :=
  units.map (Term.compile config)

end Stratagem

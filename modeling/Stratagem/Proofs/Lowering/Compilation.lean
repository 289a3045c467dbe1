import Stratagem.Proofs.Lowering.Dependence
import Stratagem.Proofs.Lowering.Failures
import Stratagem.Proofs.Lowering.Members

/-
  What compilation makes is well-formed and typed.

  Every class that is made is read back from its bytes, passes
  the structural check, and has typed methods.  So it makes no
  difference to the result whether the check is asked for.

  Key definitions include:
    * `Context.asking`

  Main declarations:
    * `Context.generate_asking`
    * `Context.generate_spec`
    * `Project.compile_checked_eq`
    * `Project.compile_typed`
-/

namespace Stratagem

open Jvm

------------------------------------------------------------
-- Asking for the Check
------------------------------------------------------------

namespace Context

/- The same context, with the check asked for or not. -/
def asking
    (c : Context)
    (verify : Bool) : Context :=
  { c with config := { c.config with verify } }

/- What is written does not depend on the check. -/
theorem generate_asking
    (c : Context)
    (verify : Bool)
    (decl : StrategyDecl)
    (definition : StrategyDef) :
    (c.asking verify).generate decl definition =
      c.generate decl definition := by
  have hAlike : (c.asking verify).Alike c :=
    ⟨.refl c.symbols, fun _ => rfl, rfl, rfl, rfl⟩
  exact hAlike.generate decl definition

------------------------------------------------------------
-- Classes
------------------------------------------------------------

variable {c : Context} {decl : StrategyDecl}
variable {definition : StrategyDef} {compiled : CompiledClass}

/- The class of a strategy is well-formed and typed. -/
theorem generate_spec
    (hNames : NamesAccepted c.config c.symbols.decls)
    (hDecl : .strategy decl ∈ c.symbols.decls)
    (hRun : c.generate decl definition = .ok compiled) :
    ∃ file, ClassFile.parse compiled.bytes = .ok file ∧
      file.verify = .ok () ∧ file.Typed := by
  rcases generate_parts hRun with
    ⟨interface, access, start, done, -, hStart, hMembers, hBytes⟩
  have hFinished := finished_members hNames
    (hNames.strategies decl hDecl) (ClassDraft.finished_start hStart)
    hMembers
  refine ⟨done.toClassFile, ?_, hFinished.verify, hFinished.typed⟩
  rw [hBytes]
  exact hFinished.writable.parse (by omega)

theorem check_of_generate
    (hNames : NamesAccepted c.config c.symbols.decls)
    (hDecl : .strategy decl ∈ c.symbols.decls)
    (hRun : c.generate decl definition = .ok compiled) :
    compiled.check = .ok () := by
  rcases generate_spec hNames hDecl hRun with
    ⟨file, hParse, hVerify, -⟩
  unfold CompiledClass.check ClassFile.parseVerified
  rw [hParse]
  dsimp only
  rw [hVerify]
  rfl

/- Compiling a strategy is making its class, checked or not. -/
theorem compileStrategy_eq_generate
    (hNames : NamesAccepted c.config c.symbols.decls)
    (hDecl : .strategy decl ∈ c.symbols.decls) :
    c.compileStrategy decl definition =
      c.generate decl definition := by
  unfold compileStrategy
  cases hRun : c.generate decl definition with
  | error e => rfl
  | ok compiled =>
      change (if c.config.verify = true then _ else _) = _
      split
      case isTrue =>
          rw [check_of_generate hNames hDecl hRun]
      case isFalse => rfl

end Context

------------------------------------------------------------
-- Projects
------------------------------------------------------------

section Projects

variable {config : Config} {symbols : SymbolTable}

/- A definition is compiled as if nothing were checked. -/
theorem compileDef_eq
    {package : PackageName}
    {d : StrategyDef}
    (hNames : NamesAccepted config symbols.decls) :
    compileDef config symbols package d =
      (symbols.declarationOf d).bind fun decl =>
        Context.generate { symbols, config, package } decl d := by
  unfold compileDef
  cases hDecl : symbols.declarationOf d with
  | error e => rfl
  | ok decl =>
      exact Context.compileStrategy_eq_generate
        (c := { symbols, config, package }) hNames
        (SymbolTable.mem_of_declarationOf hDecl)

/- Every class that is made comes from one definition. -/
theorem mem_compileDefs
    {ds : List (PackageName × StrategyDef)}
    {compiled : CompiledClass}
    (hIn : compiled ∈ (compileDefs config symbols ds).classes) :
    ∃ package d, compileDef config symbols package d =
      .ok compiled := by
  induction ds with
  | nil => cases hIn
  | cons entry ds ih =>
      rcases entry with ⟨package, d⟩
      unfold compileDefs at hIn
      cases hOne : compileDef config symbols package d with
      | error e =>
          rw [hOne] at hIn
          cases hIn
      | ok first =>
          rw [hOne] at hIn
          rcases List.mem_cons.mp hIn with rfl | hRest
          · exact ⟨package, d, hOne⟩
          · exact ih hRest

theorem NamesAccepted.asking
    {decls : List Decl}
    (hNames : NamesAccepted config decls)
    (verify : Bool) :
    NamesAccepted { config with verify } decls :=
  ⟨hNames.classes, hNames.strategies, hNames.interfaces⟩

theorem compileDef_asking
    (hNames : NamesAccepted config symbols.decls)
    (verify : Bool)
    (package : PackageName)
    (d : StrategyDef) :
    compileDef { config with verify } symbols package d =
      compileDef config symbols package d := by
  rw [compileDef_eq (hNames.asking verify), compileDef_eq hNames]
  cases symbols.declarationOf d with
  | error e => simp only [Except.bind]
  | ok decl =>
      exact Context.generate_asking
        { symbols, config, package } verify decl d

/- What is made does not depend on the check. -/
theorem compileDefs_asking
    (hNames : NamesAccepted config symbols.decls)
    (verify : Bool)
    (ds : List (PackageName × StrategyDef)) :
    compileDefs { config with verify } symbols ds =
      compileDefs config symbols ds := by
  induction ds with
  | nil => rfl
  | cons entry ds ih =>
      rcases entry with ⟨package, d⟩
      simp only [compileDefs,
        compileDef_asking hNames verify package d, ih]

/-
  Asking for the check changes neither the classes that are
  made nor what ends the run, and no class fails the check.
-/
theorem Project.compile_checked_eq
    (config : Config)
    (p : Project)
    (hNames : NamesAccepted config p.decls) :
    p.compile { config with verify := true } =
        p.compile { config with verify := false } ∧
      ∀ symbols package decl definition e,
        SymbolTable.ofDecls p.decls = .ok symbols →
        .strategy decl ∈ p.decls →
        Context.compileStrategy
            { symbols, config := { config with verify := true },
              package } decl definition ≠
          .error (.verification e) := by
  constructor
  · have hValid : Config.validate { config with verify := true } =
        Config.validate { config with verify := false } := rfl
    unfold Project.compile
    rw [hValid]
    split
    case h_1 => rfl
    case h_2 =>
        split
        case h_1 => rfl
        case h_2 symbols hTable =>
            rw [← SymbolTable.decls_of_ofDecls hTable] at hNames
            exact (compileDefs_asking hNames true _).trans
              (compileDefs_asking hNames false _).symm
  · intro symbols package decl definition e hTable hDecl
    rw [← SymbolTable.decls_of_ofDecls hTable] at hNames hDecl
    rw [Context.compileStrategy_eq_generate (hNames.asking true)
      hDecl]
    exact Context.unverified_generate _ decl definition e

/-
  Every class that is made is read back from its bytes, and
  the code of all its methods is typed.
-/
theorem Project.compile_typed
    (config : Config)
    (p : Project)
    (hNames : NamesAccepted config p.decls) :
    ∀ compiled ∈ (p.compile config).classes,
      ∃ file, ClassFile.parse compiled.bytes = .ok file ∧
        file.Typed := by
  intro compiled hIn
  unfold Project.compile at hIn
  split at hIn
  case h_1 => cases hIn
  case h_2 =>
      split at hIn
      case h_1 => cases hIn
      case h_2 symbols hTable =>
          rw [← SymbolTable.decls_of_ofDecls hTable] at hNames
          rcases mem_compileDefs hIn with ⟨package, d, hMade⟩
          rw [compileDef_eq hNames] at hMade
          rcases ok_bind.mp hMade with ⟨decl, hDecl, hRun⟩
          rcases Context.generate_spec hNames
            (SymbolTable.mem_of_declarationOf hDecl) hRun with
            ⟨file, hParse, -, hTyped⟩
          exact ⟨file, hParse, hTyped⟩

end Projects

------------------------------------------------------------
-- A Sample
------------------------------------------------------------

/- The name of the strategy that gives back its input. -/
def identityName : QName :=
  ⟨.root, "id", by decide +kernel⟩

/- A project with that strategy, on numbers. -/
def identityProject : Project where
  modules := [{
    name := .root
    decls := [.strategy {
      name := identityName
      ty := { params := [], input := .base .long,
              output := .base .long }
      modifiers := []
      pointer := { resource := "id", index := 0 } }]
    defs := [{
      name := identityName
      params := []
      input := "x"
      body := .var "x" none (.base .long)
      pointer := none }] }]

/- Settings for class files that need no frames. -/
def frameless : Config :=
  { classVersion := 49, verify := false }

theorem identityProject_names :
    NamesAccepted frameless identityProject.decls := by
  constructor
  · intro d hDecl
    rcases List.mem_singleton.mp hDecl
  · intro d hDecl
    cases List.mem_singleton.mp hDecl
    exact ⟨_, rfl⟩
  · intro n name hName
    unfold Config.strategyInterface at hName
    split at hName
    case isTrue => cases hName
    case isFalse hArity =>
        cases hName
        have hFew : n = 0 ∨ n = 1 ∨ n = 2 ∨ n = 3 := by
          change ¬ 3 < n at hArity
          omega
        rcases hFew with rfl | rfl | rfl | rfl <;>
          exact ⟨_, rfl⟩

/- The sample is compiled to one class. -/
theorem identityProject_made :
    ∃ compiled, (identityProject.compile frameless).classes =
      [compiled] :=
  List.length_eq_one_iff.mp (by decide +kernel)

theorem identityProject_checked :
    ∃ compiled,
      (identityProject.compile
          { frameless with verify := true }).classes =
        [compiled] := by
  rw [(Project.compile_checked_eq frameless identityProject
    identityProject_names).1]
  exact identityProject_made

theorem identityProject_typed :
    ∃ compiled file,
      (identityProject.compile frameless).classes = [compiled] ∧
        ClassFile.parse compiled.bytes = .ok file ∧
        file.Typed := by
  rcases identityProject_made with ⟨compiled, hMade⟩
  rcases Project.compile_typed frameless identityProject
    identityProject_names compiled (by simp [hMade]) with
    ⟨file, hParse, hTyped⟩
  exact ⟨compiled, file, hMade, hParse, hTyped⟩

end Stratagem

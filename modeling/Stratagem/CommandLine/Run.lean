import Stratagem.CommandLine.Command
import Stratagem.CommandLine.Failure
import Stratagem.Config.OfToml
import Stratagem.Storage.Store

/-
  Running commands.

  Key definitions include:
    * `Response`
    * `Command.run`
    * `runArguments`
-/

namespace Stratagem

open Jvm

variable {m : Type → Type} [Monad m] [Disk m]

/- What a command writes, and its exit code. -/
structure Response where
  code : UInt32 := 0
  stdout : String := ""
  stderr : String := ""

namespace Response

/- A command that ends with a failure. -/
def failed
    (f : Failure) : Response :=
  { code := 1, stderr := f.display }

/- The response to a result. -/
def ofResult : Except Failure String → Response
  | .ok stdout => { stdout }
  | .error f => failed f

end Response

namespace Command

------------------------------------------------------------
-- Reading
------------------------------------------------------------

/- The term in what was read. -/
def termIn : Except IoError (Array UInt8) → Except ReadError Term
  | .error e => .error (.io e)
  | .ok bytes => Term.readBytes bytes

/- The settings in what was read. -/
def configIn :
    Except IoError (Array UInt8) → Except CompileError Config
  | .error e => .error (.io e)
  | .ok bytes =>
      match textOfBytes bytes with
      | .error e => .error (.io e)
      | .ok text => Config.ofToml text

/- The term in a file. -/
def readTerm
    (path : String) : ExceptT Failure m Term := do
  match termIn (← ExceptT.lift (Disk.read path)) with
  | .ok t => return t
  | .error e =>
      throw (Failure.ofReadErrorIn s!"failed to read {path}" e)

/- The settings in a file. -/
def readConfig
    (path : String) : ExceptT Failure m Config := do
  match configIn (← ExceptT.lift (Disk.read path)) with
  | .ok c => return c
  | .error e =>
      throw (Failure.ofCompileErrorIn
        s!"failed to load configuration {path}" e)

------------------------------------------------------------
-- Compiling
------------------------------------------------------------

/- The settings for a run. -/
def configOf
    (options : CompileOptions) : ExceptT Failure m Config := do
  let config ←
    match options.config with
    | some path => readConfig path
    | none => pure {}
  let config :=
    { config with
      classVersion :=
        options.classVersion.getD config.classVersion
      verify := config.verify && options.verify }
  match config.validate with
  | .ok () => return config
  | .error e => throw (Failure.ofCompileError e)

/- Store what was compiled, unit by unit. -/
def storeUnits
    (folder : String) : List Outcome → m (List Outcome)
  | [] => return []
  | o :: os => do
      let o ← o.store folder
      let os ← storeUnits folder os
      return o :: os

/- The names of the classes of a unit, or why there are none. -/
def unitReport
    (path : String)
    (o : Outcome) : Response :=
  match o.result with
  | .ok classes =>
      { stdout :=
          String.join (classes.map fun c =>
            s!"  {c.internalName}\n") }
  | .error e =>
      { stderr := s!"error: {path}: {e.message}\n" }

/- What compiling writes once all units are done. -/
def compileReport
    (options : CompileOptions)
    (outcomes : List Outcome) : Response :=
  let reports := options.inputs.zipWith unitReport outcomes
  let stdout := String.join (reports.map Response.stdout)
  let stderr := String.join (reports.map Response.stderr)
  let failed := (outcomes.filter (·.error.isSome)).length
  if 0 < failed then
    let f : Failure :=
      { message :=
          s!"{failed} of {options.inputs.length} inputs " ++
            "failed to compile" }
    { code := 1, stdout, stderr := stderr ++ f.display }
  else
    let count := (outcomes.flatMap (·.classes)).length
    { stdout :=
        stdout ++
          s!"Compiled {count} classes into {options.outDir}\n"
      stderr }

/- Compile files. -/
def runCompile
    (options : CompileOptions) : m Response := do
  let inputs : ExceptT Failure m (Config × List Term) := do
    let config ← configOf options
    let units ← options.inputs.mapM readTerm
    return (config, units)
  match ← inputs.run with
  | .error f => return .failed f
  | .ok (config, units) =>
      let outcomes ←
        storeUnits options.outDir (compileUnits config units)
      return compileReport options outcomes

------------------------------------------------------------
-- Showing
------------------------------------------------------------

/- The lines of a text, without their ends. -/
def linesOf
    (text : String) : List String :=
  let lines := text.splitOn "\n"
  let ended := lines.dropLast.map fun line =>
    if line.endsWith "\r" then String.ofList line.toList.dropLast
    else line
  ended ++ (lines.getLast?.toList.filter (!·.isEmpty))

/- A definition as text. -/
def displayDef
    (d : StrategyDef) : String :=
  s!"\n  def {d.name.display}(" ++
    ", ".intercalate d.paramNames ++ s!") {d.input} =\n" ++
    String.join ((linesOf d.body.display).map fun line =>
      s!"    {line}\n")

/- A module as text. -/
def displayModule
    (p : Module) : String :=
  s!"module {p.name.text}\n" ++
    String.join (p.decls.map fun d => s!"  decl {d.display}\n") ++
    String.join (p.defs.map displayDef)

/- Show the definitions in a file. -/
def runParse
    (path : String) : ExceptT Failure m String := do
  let t ← readTerm path
  match t.project with
  | .ok p => return String.join (p.modules.map displayModule)
  | .error e => throw (Failure.ofCompileError e)

/- Show a type. -/
def runSignature
    (text : String)
    (descriptor : Bool) : Except Failure String :=
  let result :=
    if descriptor then Ty.ofDescriptor text
    else Ty.ofSignature text
  match result with
  | .error e => .error { message := e.message }
  | .ok t =>
      let erased :=
        match t.descriptor with
        | .ok d => d
        | .error e => s!"none ({e.message})"
      .ok (s!"type:       {t.display}\n" ++
        s!"descriptor: {erased}\n" ++
        s!"signature:  {t.signature}\n")

/- Show a class file. -/
def runDisasm
    (path : String) : ExceptT Failure m String := do
  match ← ExceptT.lift (Disk.read path) with
  | .error e =>
      throw {
        message := s!"failed to read {path}"
        causes := [e.message] }
  | .ok bytes =>
      match ClassFile.parseVerified bytes with
      | .error e =>
          throw { message := e.message, causes := e.causes }
      | .ok file => return file.display

/- Run a command. -/
def run : Command → m Response
  | .compile options => runCompile options
  | .parse input => do
      return .ofResult (← (runParse input).run)
  | .signature text descriptor =>
      return .ofResult (runSignature text descriptor)
  | .disasm file => do
      return .ofResult (← (runDisasm file).run)

end Command

/- Run the command that arguments spell. -/
def runArguments
    (args : List String) : m Response :=
  match Command.parse? args with
  | some c => c.run
  | none => return { code := 2 }

end Stratagem

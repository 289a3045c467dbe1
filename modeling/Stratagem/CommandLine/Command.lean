import Stratagem.Text.Integer

/-
  Commands and how they are written.

  Options may stand anywhere behind the name of the command.
  What follows `--` is never an option.

  Key definitions include:
    * `Command`
    * `Flag`
    * `Arguments.scan?`
    * `Command.parse?`
-/

namespace Stratagem

------------------------------------------------------------
-- Commands
------------------------------------------------------------

/- What to compile, and how. -/
structure CompileOptions where
  inputs : List String
  outDir : String := "classes"
  config : Option String := none
  classVersion : Option UInt16 := none
  verify : Bool := true

/- What the program is to do. -/
inductive Command where
  | compile (options : CompileOptions)
  | parse (input : String)
  | signature (text : String) (descriptor : Bool)
  | disasm (file : String)

------------------------------------------------------------
-- Options
------------------------------------------------------------

/- An option: its names, and whether a value follows. -/
structure Flag where
  long : String
  short : Option Char := none
  hasValue : Bool := false
  repeats : Bool := false

/- Arguments without a name, and options with their values. -/
structure Arguments where
  positional : List String := []
  named : List (String × String) := []

namespace Arguments

/- Whether a text cannot be a value, because it is an option. -/
def isOption
    (text : String) : Bool :=
  text.startsWith "-" && text != "-"

/- What one argument says; its value may be the next one. -/
structure Piece where
  positional : List String := []
  named : List (String × String) := []
  usesNext : Bool := false

/- An option whose value is the next argument. -/
def awaiting?
    (name : String) : Option String → Option Piece
  | none => none
  | some value =>
      if isOption value then none
      else some { named := [(name, value)], usesNext := true }

/-
  Short options in one argument.  The value of one that has a
  value is the rest of the argument, or else the next one.
-/
def shortOptions?
    (flags : List Flag)
    (next : Option String) : List Char → Option Piece
  | [] => some {}
  | c :: rest =>
      match flags.find? (·.short == some c), rest with
      | none, _ => none
      | some f, rest =>
          if !f.hasValue then
            (shortOptions? flags next rest).map fun p =>
              { p with named := (f.long, "") :: p.named }
          else
            match rest with
            | [] => awaiting? f.long next
            | '=' :: value =>
                some { named := [(f.long, String.ofList value)] }
            | value =>
                some { named := [(f.long, String.ofList value)] }

/- A long option, perhaps with its value. -/
def longOption?
    (flags : List Flag)
    (next : Option String)
    (cs : List Char) : Option Piece :=
  let name := String.ofList (cs.takeWhile (· != '='))
  match flags.find? (·.long == name) with
  | none => none
  | some f =>
      match cs.dropWhile (· != '='), f.hasValue with
      | [], false => some { named := [(name, "")] }
      | [], true => awaiting? name next
      | _ :: _, false => none
      | _ :: value, true =>
          some { named := [(name, String.ofList value)] }

/- What an argument in front of another says. -/
def piece?
    (flags : List Flag)
    (text : String)
    (next : Option String) : Option Piece :=
  match text.toList with
  | '-' :: '-' :: cs => longOption? flags next cs
  | '-' :: c :: cs => shortOptions? flags next (c :: cs)
  | _ => some { positional := [text] }

/- The arguments in order; none if one cannot be read. -/
def scan?
    (flags : List Flag) : List String → Option Arguments
  | [] => some {}
  | text :: rest =>
      if text = "--" then
        some { positional := rest }
      else
        match piece? flags text rest.head? with
        | none => none
        | some p =>
            (scan? flags (if p.usesNext then rest.tail else rest)).map
              fun a =>
                { positional := p.positional ++ a.positional
                  named := p.named ++ a.named }
termination_by args => args.length
decreasing_by
  have hTail : rest.tail.length ≤ rest.length := by
    rw [List.length_tail]
    omega
  split <;> simp only [List.length_cons] <;> omega

/- No option is given twice, unless it may be. -/
def isUnique
    (flags : List Flag)
    (a : Arguments) : Bool :=
  flags.all fun f =>
    f.repeats || (a.named.filter (·.1 == f.long)).length ≤ 1

/- The arguments, if they can be read. -/
def parse?
    (flags : List Flag)
    (args : List String) : Option Arguments := do
  let a ← scan? flags args
  if a.isUnique flags then some a else none

/- The value of an option. -/
def get?
    (a : Arguments)
    (name : String) : Option String :=
  a.named.lookup name

/- Whether an option is given. -/
def has
    (a : Arguments)
    (name : String) : Bool :=
  (a.get? name).isSome

end Arguments

------------------------------------------------------------
-- Reading Commands
------------------------------------------------------------

namespace Command

/- An option of every command: to say more. -/
def verbose : Flag :=
  { long := "verbose", short := some 'v', repeats := true }

/- Options for compiling. -/
def compileFlags : List Flag :=
  [verbose,
    { long := "out-dir", short := some 'o', hasValue := true },
    { long := "config", hasValue := true },
    { long := "class-version", hasValue := true },
    { long := "no-verify" }]

/- A path, which is not empty. -/
def path?
    (text : String) : Option String :=
  if text.isEmpty then none else some text

/- A number of sixteen bits. -/
def version?
    (text : String) : Option UInt16 := do
  let n ← Text.parseInteger? text
  if 0 ≤ n.toInt ∧ n.toInt < UInt16.size then
    some (UInt16.ofNat n.toInt.toNat)
  else
    none

/- Read a value, if there is one. -/
def optional
    {α : Type}
    (read : String → Option α) :
    Option String → Option (Option α)
  | none => some none
  | some text => (read text).map some

/- The command to compile files, of which there is one. -/
def parseCompile?
    (args : List String) : Option Command := do
  let a ← Arguments.parse? compileFlags args
  let inputs ← a.positional.mapM path?
  if inputs.isEmpty then
    none
  let outDir ← optional path? (a.get? "out-dir")
  let config ← optional path? (a.get? "config")
  let classVersion ← optional version? (a.get? "class-version")
  return .compile {
    inputs
    outDir := outDir.getD "classes"
    config
    classVersion
    verify := !a.has "no-verify" }

/- The one argument without a name. -/
def single?
    (flags : List Flag)
    (args : List String) : Option (String × Arguments) := do
  let a ← Arguments.parse? flags args
  match a.positional with
  | [text] => some (text, a)
  | _ => none

/- The command that arguments spell. -/
def parse? : List String → Option Command
  | [] => none
  | "compile" :: args => parseCompile? args
  | "parse" :: args => do
      let (text, _) ← single? [verbose] args
      return .parse (← path? text)
  | "disasm" :: args => do
      let (text, _) ← single? [verbose] args
      return .disasm (← path? text)
  | "signature" :: args => do
      let (text, a) ←
        single? [verbose, { long := "descriptor" }] args
      return .signature text (a.has "descriptor")
  | arg :: args =>
      match Arguments.scan? [verbose] [arg] with
      | some { positional := [], named := _ :: _ } => parse? args
      | _ => none

end Command

end Stratagem

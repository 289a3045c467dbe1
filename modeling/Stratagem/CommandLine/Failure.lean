import Stratagem.Program.Error
import Stratagem.Term.Source

/-
  Reports of failures.

  A failure is told with its causes, each of which has caused
  the one before.

  Key definitions include:
    * `Failure`
    * `Failure.display`
-/

namespace Stratagem

------------------------------------------------------------
-- Causes
------------------------------------------------------------

/- What has caused an error in a class file. -/
def ClassFileError.causes : ClassFileError → List String
  | .type e => [e.message]
  | .signature e => [e.message]
  | .decode e => [e.message]
  | .io e => [e.message]
  | _ => []

/- What has caused an error of a check. -/
def VerifyError.causes : VerifyError → List String
  | .decode e => [e.message]
  | .method _ source => source.message :: source.causes
  | _ => []

/- What has caused an error of reading. -/
def ReadError.causes : ReadError → List String
  | .io e => [e.message]
  | .format e => [e.message]

/- What has caused an error of compiling. -/
def CompileError.causes : CompileError → List String
  | .format e => [e.message]
  | .verification e => e.message :: e.causes
  | .term e => [e.message]
  | .type e => [e.message]
  | .classFile e => e.message :: e.causes
  | .io e => [e.message]
  | _ => []

------------------------------------------------------------
-- Failures
------------------------------------------------------------

/- A message with its causes. -/
structure Failure where
  message : String
  causes : List String := []

namespace Failure

/- Text whose later lines stand under its first. -/
def indent
    (first later text : String) : String :=
  first ++ ("\n" ++ later).intercalate (text.splitOn "\n")

/- One of several causes, behind its number. -/
def numbered
    (number : Nat) : List String → String
  | [] => ""
  | cause :: rest =>
      let text := toString number
      let blanks :=
        String.ofList (List.replicate (5 - text.length) ' ')
      "\n" ++ indent (blanks ++ text ++ ": ") "       " cause ++
        numbered (number + 1) rest

/- The failure as text; a single cause has no number. -/
def display
    (f : Failure) : String :=
  "Error: " ++ f.message ++
    (match f.causes with
    | [] => ""
    | [cause] =>
        "\n\nCaused by:\n" ++ indent "    " "    " cause
    | causes => "\n\nCaused by:" ++ numbered 0 causes) ++
    "\n"

/- An error of compiling. -/
def ofCompileError
    (e : CompileError) : Failure :=
  { message := e.message, causes := e.causes }

/- An error of compiling, behind what was tried. -/
def ofCompileErrorIn
    (what : String)
    (e : CompileError) : Failure :=
  { message := what, causes := e.message :: e.causes }

/- An error of reading, behind what was tried. -/
def ofReadErrorIn
    (what : String)
    (e : ReadError) : Failure :=
  { message := what, causes := e.message :: e.causes }

end Failure

end Stratagem

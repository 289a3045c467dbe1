import Stratagem.CommandLine.Run

/-
  The program: it runs the command that its arguments spell on
  the files of the machine.

  Key definitions include:
    * `main`
-/

namespace Stratagem

/- The refusal of the file system that an error tells of. -/
def IoError.ofSystem : IO.Error → IoError
  | .noFileOrDirectory .. => .notFound
  | .alreadyExists .. => .alreadyExists
  | .inappropriateType .. => .isADirectory
  | .resourceExhausted .. => .nameTooLong
  | .invalidArgument .. => .nameTooLong
  | .noSuchThing .. => .notFound
  | _ => .notADirectory

/- A step on the machine, with its refusals. -/
def onMachine
    {α : Type}
    (x : IO α) : IO (Except IoError α) := do
  match ← x.toBaseIO with
  | .ok a => return .ok a
  | .error e => return .error (.ofSystem e)

instance : Disk IO where
  read path := onMachine do
    return (← IO.FS.readBinFile path).data
  makeFolders path := onMachine (IO.FS.createDirAll path)
  write path bytes := onMachine (IO.FS.writeBinFile path ⟨bytes⟩)

end Stratagem

/- Run the command that the arguments spell. -/
def main
    (args : List String) : IO UInt32 := do
  let response ← Stratagem.runArguments args
  IO.print response.stdout
  IO.eprint response.stderr
  return response.code

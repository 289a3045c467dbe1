import Stratagem.Lowering.Compile
import Stratagem.Storage.FileTree

/-
  Storing compiled classes.

  Key definitions include:
    * `CompiledClass.storeInPackage`
    * `CompiledClass.store`
    * `Outcome.store`
-/

namespace Stratagem

variable {m : Type → Type} [Monad m] [Disk m]

/- A path with one more name behind it. -/
def joinPath
    (path name : String) : String :=
  if path.isEmpty || path.endsWith '/' then path ++ name
  else path ++ "/" ++ name

/- Write a class into the folder of its package. -/
def CompiledClass.storeInPackage
    (folder : String)
    (c : CompiledClass) : m (Except ClassFileError String) := do
  let parent := c.path.dropLast.foldl joinPath folder
  let path := c.path.foldl joinPath folder
  match ← Disk.makeFolders parent with
  | .error e => return .error (.io e)
  | .ok () =>
      match ← Disk.write path c.bytes with
      | .error e => return .error (.io e)
      | .ok () => return .ok path

/- Write a class below a folder, which is made if need be. -/
def CompiledClass.store
    (folder : String)
    (c : CompiledClass) : m (Except CompileError Unit) := do
  match ← Disk.makeFolders folder with
  | .error e => return .error (.io e)
  | .ok () =>
      match ← c.storeInPackage folder with
      | .error e => return .error (.classFile e)
      | .ok _ => return .ok ()

/- Write classes below a folder, up to the first that fails. -/
def storeAll
    (folder : String)
    (error : Option CompileError) :
    List CompiledClass → m Outcome
  | [] => return { error }
  | c :: cs => do
      match ← c.store folder with
      | .error e => return .failed e
      | .ok () =>
          let o ← storeAll folder error cs
          return { o with classes := c :: o.classes }

/- Write the classes of a run, each as soon as it is made. -/
def Outcome.store
    (folder : String)
    (o : Outcome) : m Outcome :=
  storeAll folder o.error o.classes

end Stratagem

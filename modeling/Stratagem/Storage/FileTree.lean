import Stratagem.Storage.Error

/-
  Files in folders.

  Key definitions include:
    * `FileTree`
    * `FileTree.components`
    * `FileTree.read`
    * `FileTree.makeFolders`
    * `FileTree.write`
    * `FileTree.files`
    * `Disk`
-/

namespace Stratagem

------------------------------------------------------------
-- Trees
------------------------------------------------------------

/- A file or a folder. -/
inductive FileNode where
  | file (bytes : Array UInt8)
  | folder (entries : List (String × FileNode))

/- What a folder holds. -/
abbrev FileTree :=
  List (String × FileNode)

namespace FileTree

/- Put something under a name, in the place of what is there. -/
def set
    (t : FileTree)
    (name : String)
    (node : FileNode) : FileTree :=
  if (t.lookup name).isSome then
    t.map fun (n, x) => if n = name then (n, node) else (n, x)
  else
    t ++ [(name, node)]

/- What is under a name, if that can be a name. -/
def find
    (t : FileTree)
    (name : String) : Except IoError (Option FileNode) :=
  if 255 < name.utf8ByteSize then .error .nameTooLong
  else .ok (t.lookup name)

/- Take the next component of a path, whose last comes first. -/
def step
    (before : List String) : String → List String
  | "" => before
  | "." => before
  | ".." => before.tail
  | name => name :: before

/-
  The names on a path, with the ways back taken.  No name
  holds the zero character.
-/
def components
    (path : String) : Except IoError (List String) :=
  if path.toList.contains '\x00' then
    .error .zeroInName
  else
    .ok (((path.toList.splitOn '/').map String.ofList).foldl
      step []).reverse

------------------------------------------------------------
-- Reading and Writing
------------------------------------------------------------

/- The bytes of the file on a path. -/
def readAt : List String → FileTree → Except IoError (Array UInt8)
  | [], _ => .error .isADirectory
  | name :: path, t => do
      match ← t.find name with
      | none => throw .notFound
      | some (.folder entries) => readAt path entries
      | some (.file bytes) =>
          if path.isEmpty then return bytes
          else throw .notADirectory

/- Make all folders on a path that are not there. -/
def makeFoldersAt :
    List String → FileTree → Except IoError FileTree
  | [], t => .ok t
  | name :: path, t => do
      match ← t.find name with
      | none =>
          let inner ← makeFoldersAt path []
          return t.set name (.folder inner)
      | some (.folder entries) =>
          let inner ← makeFoldersAt path entries
          return t.set name (.folder inner)
      | some (.file _) =>
          if path.isEmpty then throw .alreadyExists
          else throw .notADirectory

/- Write the file on a path, whose folders are there. -/
def writeAt
    (bytes : Array UInt8) :
    List String → FileTree → Except IoError FileTree
  | [], _ => .error .isADirectory
  | [name], t => do
      match ← t.find name with
      | some (.folder _) => throw .isADirectory
      | _ => return t.set name (.file bytes)
  | name :: path, t => do
      match ← t.find name with
      | none => throw .notFound
      | some (.file _) => throw .notADirectory
      | some (.folder entries) =>
          let inner ← writeAt bytes path entries
          return t.set name (.folder inner)

/- The bytes of a file; no file has an empty path. -/
def read
    (t : FileTree)
    (path : String) : Except IoError (Array UInt8) :=
  if path.isEmpty then .error .notFound
  else do readAt (← components path) t

/- Make a folder and those above it. -/
def makeFolders
    (t : FileTree)
    (path : String) : Except IoError FileTree := do
  makeFoldersAt (← components path) t

/- Write a file. -/
def write
    (t : FileTree)
    (path : String)
    (bytes : Array UInt8) : Except IoError FileTree := do
  writeAt bytes (← components path) t

mutual

/- The files in a folder, whose path is given. -/
def filesIn
    (folder : String) : FileTree → List (String × Array UInt8)
  | [] => []
  | (name, node) :: rest =>
      filesOf (folder ++ name) node ++ filesIn folder rest

/- The files that something on a path is or holds. -/
def filesOf
    (path : String) : FileNode → List (String × Array UInt8)
  | .file bytes => [(path, bytes)]
  | .folder entries => filesIn (path ++ "/") entries

end

/- All files with their paths. -/
def files
    (t : FileTree) : List (String × Array UInt8) :=
  filesIn "" t

end FileTree

------------------------------------------------------------
-- Disks
------------------------------------------------------------

/- Where files are read and written. -/
class Disk (m : Type → Type) where
  read : String → m (Except IoError (Array UInt8))
  makeFolders : String → m (Except IoError Unit)
  write : String → Array UInt8 → m (Except IoError Unit)

/- Keep a tree that is changed, unless the change fails. -/
def FileTree.update
    (change : FileTree → Except IoError FileTree) :
    StateM FileTree (Except IoError Unit) :=
  modifyGet fun t =>
    match change t with
    | .ok t => (.ok (), t)
    | .error e => (.error e, t)

instance : Disk (StateM FileTree) where
  read path := do return (← get).read path
  makeFolders path := FileTree.update (·.makeFolders path)
  write path bytes := FileTree.update (·.write path bytes)

end Stratagem

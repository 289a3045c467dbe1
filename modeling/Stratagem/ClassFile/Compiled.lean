import Stratagem.ClassFile.Check
import Stratagem.ClassFile.Display

/-
  Compiled classes, ready to be stored.

  Key definitions include:
    * `CompiledClass`
    * `CompiledClass.ofTy`
    * `CompiledClass.internalName`
    * `CompiledClass.check`
    * `CompiledClass.path`
    * `CompiledClass.display`
-/

namespace Stratagem

/- The bytes of a class with its name and its package. -/
structure CompiledClass where
  name : String
  package : String
  bytes : Array UInt8

namespace CompiledClass

/-
  A class named by its type.  The package is what stands
  before the last point of the class path.
-/
def ofTy
    (t : Jvm.Ty)
    (bytes : Array UInt8) :
    Except ClassFileError CompiledClass :=
  match t.classPath with
  | .error e => .error (.type e)
  | .ok path =>
      let reversed := path.toList.reverse
      let name := reversed.takeWhile (· != '.')
      let before := (reversed.dropWhile (· != '.')).drop 1
      .ok {
        name := String.ofList name.reverse
        package :=
          String.ofList
            (before.reverse.map fun c =>
              if c = '.' then '/' else c)
        bytes }

/- The package and the name, parted by a slash. -/
def internalName
    (c : CompiledClass) : String :=
  if c.package.isEmpty then c.name
  else c.package ++ "/" ++ c.name

/- The bytes are a well-formed class file. -/
def check
    (c : CompiledClass) : Except VerifyError Unit := do
  discard (ClassFile.parseVerified c.bytes)

/- Characters that the name of a file keeps. -/
def isFileChar
    (c : Char) : Bool :=
  c.isAlphanum || c == '_' || c == '$'

/- The file of a class: a folder for each package segment. -/
def path
    (c : CompiledClass) : List String :=
  ((c.package.toList.splitOn '/').filter (!·.isEmpty)).map
      String.ofList ++
    [String.ofList (c.name.toList.filter isFileChar) ++ ".class"]

/- The class file in words, or why it cannot be decoded. -/
def display
    (c : CompiledClass) : String :=
  match ClassFile.parse c.bytes with
  | .ok file => file.display
  | .error e =>
      s!"// {c.internalName}: undecodable ({e.message})\n"

end CompiledClass

end Stratagem

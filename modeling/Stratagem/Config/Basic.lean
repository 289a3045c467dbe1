import Stratagem.Program.Error

/-
  Settings of the compiler.

  Key definitions include:
    * `Config`
    * `Config.validate`
    * `Config.strategyInterface`
-/

namespace Stratagem

/-
  Settings for one run: the package of the interfaces that
  strategies implement, the package that is searched last, the
  version of class files, whether they are checked, and how
  many parameters a strategy may have.
-/
structure Config where
  runtimePackage : String := "com/virtlink/tego/strategies"
  defaultPackage : String := "tego"
  classVersion : UInt16 := 52
  verify : Bool := true
  maxArity : Nat := 3

namespace Config

/- The oldest version of class files. -/
def leastVersion : UInt16 :=
  45

/- The newest version of class files. -/
def greatestVersion : UInt16 :=
  69

/- A setting names a package. -/
def checkPackage
    (key value : String) : Except CompileError Unit :=
  if PackageName.isLegal value then .ok ()
  else .error (.config (.package key value))

/- The settings can be used. -/
def validate
    (c : Config) : Except CompileError Unit := do
  let version := c.classVersion
  if version < leastVersion || greatestVersion < version then
    throw (.config
      (.classVersion version leastVersion greatestVersion))
  checkPackage "runtime_package" c.runtimePackage
  checkPackage "default_package" c.defaultPackage

/- The package that is searched last. -/
def defaultPackageName
    (c : Config) : Except CompileError PackageName :=
  PackageName.ofText c.defaultPackage

/- The interface for strategies with so many parameters. -/
def strategyInterface
    (c : Config)
    (arity : Nat) : Except CompileError String :=
  if c.maxArity < arity then
    .error (.unsupported (.arity arity c.maxArity))
  else
    let simple :=
      if arity = 0 then "Strategy" else s!"Strategy{arity}"
    .ok (if c.runtimePackage.isEmpty then simple
      else c.runtimePackage ++ "/" ++ simple)

end Config

end Stratagem

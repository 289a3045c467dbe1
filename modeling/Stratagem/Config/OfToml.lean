import Stratagem.Config.Basic
import Stratagem.Toml.Document

/-
  Settings from a document.

  Key definitions include:
    * `Config.ofToml`
-/

namespace Stratagem

namespace Config

open Toml

/-
  A setting, or its default if it is not given.  It is an
  error if it is given as something that it cannot be.
-/
def setting
    {α : Type}
    (t : Table)
    (key : String)
    (read : Value → Option α)
    (default : α) : Except CompileError α :=
  match t.get? key with
  | none => .ok default
  | some (.value v) =>
      match read v with
      | some x => .ok x
      | none => .error .configSyntax
  | some _ => .error .configSyntax

/- A text. -/
def asText : Value → Option String
  | .string s => some s
  | _ => none

/- A truth value. -/
def asFlag : Value → Option Bool
  | .boolean b => some b
  | _ => none

/- A number that is not negative. -/
def asCount : Value → Option Nat
  | .integer n =>
      if 0 ≤ n.toInt then some n.toInt.toNat else none
  | _ => none

/- A number of sixteen bits. -/
def asVersion
    (v : Value) : Option UInt16 := do
  let n ← asCount v
  if n < UInt16.size then some (UInt16.ofNat n) else none

/- The settings that a table gives; other keys do not matter. -/
def ofTable
    (t : Table) : Except CompileError Config := do
  let d : Config := {}
  return {
    runtimePackage :=
      ← setting t "runtime_package" asText d.runtimePackage
    defaultPackage :=
      ← setting t "default_package" asText d.defaultPackage
    classVersion :=
      ← setting t "class_version" asVersion d.classVersion
    verify := ← setting t "verify" asFlag d.verify
    maxArity :=
      ← setting t "max_strategy_arity" asCount d.maxArity }

/- The settings that a document gives, if they can be used. -/
def ofToml
    (text : String) : Except CompileError Config :=
  match document? text with
  | none => .error .configSyntax
  | some t => do
      let c ← ofTable t
      c.validate
      return c

end Config

end Stratagem

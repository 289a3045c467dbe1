import Stratagem.Config.Basic
import Stratagem.Jvm.Signature
import Stratagem.Jvm.Ty.Known
import Stratagem.Program.SymbolTable

/-
  How types of values become types of class files.

  A strategy becomes an object of the interface for its number
  of parameters, and what it takes and gives become arguments
  of that interface.

  Key definitions include:
    * `Context`
    * `Context.lower`
    * `Context.strategyTy`
    * `Context.strategyClass`
    * `Context.classSignature`
    * `Context.evalSignature`
    * `Context.bridgeSignature`
    * `Context.applyDescriptor`
-/

namespace Stratagem

open Jvm

/- What a definition is compiled in. -/
structure Context where
  symbols : SymbolTable
  config : Config
  package : PackageName

namespace Context

------------------------------------------------------------
-- Values
------------------------------------------------------------

/- The name of the parameter of every class for its context. -/
def contextParam : String :=
  "CTX"

/- The type of the context that strategies run in. -/
def contextTy : Ty :=
  .variable contextParam

/- The type of values without parts. -/
def lowerBase : BaseType → Except CompileError Ty
  | .bool => .ok (.primitive .boolean)
  | .char => .ok (.primitive .char)
  | .byte => .ok (.primitive .byte)
  | .ubyte => .ok (.primitive .byte)
  | .short => .ok (.primitive .short)
  | .ushort => .ok (.primitive .short)
  | .int => .ok (.primitive .int)
  | .uint => .ok (.primitive .int)
  | .long => .ok (.primitive .long)
  | .ulong => .ok (.primitive .long)
  | .float => .ok (.primitive .float)
  | .double => .ok (.primitive .double)
  | .any => .ok Known.object
  | .nothing => .ok Known.object
  | .unit => .ok Known.voidObject
  | .string => .ok Known.string
  | .error => .error (.unsupported .errorType)

/- The class that a reference means. -/
def lowerClass
    (c : Context)
    (name : String)
    (pointer : Option Pointer) : Except CompileError Ty :=
  let decl :=
    match pointer with
    | some p => c.symbols.class? p
    | none => c.symbols.classNamed? c.package name
  match decl with
  | some d => .ok (.ofClass (d.name.internalName ""))
  | none => .error (.unresolved s!"class {name}")

mutual

/- The type of the values of a type. -/
def lower
    (c : Context) : ValueType → Except CompileError Ty
  | .base b => lowerBase b
  | .strategy params input output => do
      let params ← c.lowerArgs params
      let input ← c.lower input
      let output ← c.lower output
      let interface ← c.config.strategyInterface params.length
      return .object (.top interface
        (contextTy :: params ++
          [input.asReference, output.asReference]))
  | .tuple components =>
      .error (.unsupported (.tupleType (.tuple components)))
  | .list element => do
      let element ← c.lower element
      return .object (.top "java/util/List" [element.asReference])
  | .classRef name pointer => c.lowerClass name pointer

/- Types as arguments of a class. -/
def lowerArgs
    (c : Context) :
    List ValueType → Except CompileError (List Ty)
  | [] => .ok []
  | t :: ts => do
      let ty ← c.lower t
      let tys ← c.lowerArgs ts
      return ty.asReference :: tys

end

/- The type of values of a type, as an argument of a class. -/
def lowerArg
    (c : Context)
    (t : ValueType) : Except CompileError Ty := do
  return (← c.lower t).asReference

/- The type of the values that a strategy is. -/
def strategyTy
    (c : Context)
    (s : StrategyType) : Except CompileError Ty :=
  c.lower s.toValueType

------------------------------------------------------------
-- Classes and Methods
------------------------------------------------------------

/- The class made for a declared strategy. -/
def strategyClass
    (d : StrategyDecl) : Ty :=
  .ofClass (d.name.internalName "Strategy")

/- The signature of that class. -/
def classSignature
    (c : Context)
    (d : StrategyDecl) : Except CompileError ClassSig := do
  let interface ← c.strategyTy d.ty
  return {
    superClass := Known.object
    interfaces := [interface]
    typeParams :=
      [{ name := contextParam, classBound := some Known.object }] }

/- The types of values of types, one after another. -/
def lowerAll
    (c : Context) :
    List ValueType → Except CompileError (List Ty)
  | [] => .ok []
  | t :: ts => do
      let ty ← c.lower t
      let tys ← c.lowerAll ts
      return ty :: tys

/- The method that holds the body of a strategy. -/
def evalSignature
    (c : Context)
    (s : StrategyType) : Except CompileError MethodSig := do
  let params ← c.lowerAll s.params
  let input ← c.lower s.input
  let result ← c.lower s.output
  return { result, params := contextTy :: params ++ [input] }

/- The method of the interface, which takes and gives objects. -/
def bridgeSignature
    (arity : Nat) : MethodSig :=
  { result := Known.object
    params := List.replicate (arity + 2) Known.object }

/- A result whose error is about a type. -/
def ofTypeError
    {α : Type} :
    Except TypeError α → Except CompileError α
  | .ok x => .ok x
  | .error e => .error (.type e)

/-
  The descriptor of the method that supplies arguments and
  leaves so many parameters.
-/
def applyDescriptor
    (c : Context)
    (supplied residual : Nat) : Except CompileError String := do
  let interface ← c.config.strategyInterface residual
  let m : MethodSig :=
    { result := .ofClass interface
      params := List.replicate supplied Known.object }
  ofTypeError m.descriptor

end Context

end Stratagem

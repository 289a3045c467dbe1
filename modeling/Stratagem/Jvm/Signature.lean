import Stratagem.Jvm.Ty.Parser
import Stratagem.Jvm.Ty.Printer

/-
  Signatures of classes and methods.

  Key definitions include:
    * `Jvm.TypeParam`
    * `Jvm.ClassSig`
    * `Jvm.MethodSig`
    * `Jvm.MethodSig.descriptor`
    * `Jvm.MethodSig.isGeneric`
-/

namespace Stratagem

namespace Jvm

/- Types one after another. -/
def signatures
    (ts : List Ty) : String :=
  String.join (ts.map Ty.signature)

/- Displays separated by commas. -/
def commaSeparated
    (texts : List String) : String :=
  ",".intercalate texts

------------------------------------------------------------
-- Type Parameters
------------------------------------------------------------

/- A type parameter with its bounds. -/
structure TypeParam where
  name : String
  classBound : Option Ty := none
  interfaceBounds : List Ty := []

namespace TypeParam

/- The encoded parameter. -/
def signature
    (p : TypeParam) : String :=
  p.name ++ ":" ++
    (p.classBound.map Ty.signature).getD "" ++
    String.join (p.interfaceBounds.map (":" ++ ·.signature))

/- The parameter as programs write it. -/
def display
    (p : TypeParam) : String :=
  p.name ++
    (match p.classBound with
    | some b => s!" extends {b.display}"
    | none => "") ++
    (if p.interfaceBounds.isEmpty then ""
    else
      " implements " ++
        commaSeparated (p.interfaceBounds.map Ty.display))

/- Encoded parameters in angle brackets, if there are any. -/
def signatureList
    (ps : List TypeParam) : String :=
  if ps.isEmpty then ""
  else "<" ++ String.join (ps.map signature) ++ ">"

/- Parameters in angle brackets, if there are any. -/
def displayList
    (ps : List TypeParam) : String :=
  if ps.isEmpty then ""
  else "<" ++ commaSeparated (ps.map display) ++ ">"

end TypeParam

------------------------------------------------------------
-- Classes
------------------------------------------------------------

/- What a class extends and implements. -/
structure ClassSig where
  superClass : Ty
  interfaces : List Ty := []
  typeParams : List TypeParam := []

namespace ClassSig

/- The encoded signature. -/
def signature
    (c : ClassSig) : String :=
  TypeParam.signatureList c.typeParams ++
    c.superClass.signature ++ signatures c.interfaces

/- The signature as programs write it. -/
def display
    (c : ClassSig) : String :=
  TypeParam.displayList c.typeParams ++
    s!" extends {c.superClass.display}" ++
    (if c.interfaces.isEmpty then ""
    else
      " implements " ++
        commaSeparated (c.interfaces.map Ty.display))

end ClassSig

------------------------------------------------------------
-- Methods
------------------------------------------------------------

/- What a method takes, returns and throws. -/
structure MethodSig where
  result : Ty
  params : List Ty
  typeParams : List TypeParam := []
  throws : List Ty := []

namespace MethodSig

/- The method with a descriptor. -/
def ofDescriptor
    (text : String) : Except SignatureError MethodSig := do
  let (params, result) ← parseMethodDescriptor text
  return { result, params }

/- The encoded signature. -/
def signature
    (m : MethodSig) : String :=
  TypeParam.signatureList m.typeParams ++ "(" ++
    signatures m.params ++ ")" ++ m.result.signature ++
    String.join (m.throws.map ("^" ++ ·.signature))

/- The erased form. -/
def descriptor
    (m : MethodSig) : Except TypeError String := do
  let params ← m.params.mapM Ty.descriptor
  let result ← m.result.descriptor
  return "(" ++ String.join params ++ ")" ++ result

/- Whether the signature says more than the descriptor. -/
def isGeneric
    (m : MethodSig) : Bool :=
  !m.typeParams.isEmpty ||
    (match m.descriptor with
    | .ok d => d != m.signature
    | .error _ => true)

/- Slots of all parameters, as a sixteen-bit number. -/
def parameterSlots
    (m : MethodSig) : Nat :=
  Ty.totalSlots m.params % UInt16.size

/- The signature as programs write it. -/
def display
    (m : MethodSig) : String :=
  TypeParam.displayList m.typeParams ++ "(" ++
    commaSeparated (m.params.map Ty.display) ++ ") " ++
    m.result.display ++
    (if m.throws.isEmpty then ""
    else " throws " ++ commaSeparated (m.throws.map Ty.display))

end MethodSig

end Jvm

end Stratagem

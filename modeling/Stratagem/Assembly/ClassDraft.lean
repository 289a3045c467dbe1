import Stratagem.Assembly.Finish

/-
  Classes under construction.

  Key definitions include:
    * `ClassDraft`
    * `ClassDraft.start`
    * `Drafting`
    * `Drafting.addInterface`
    * `Drafting.addField`
    * `ClassDraft.method`
    * `Drafting.method`
    * `ClassDraft.toClassFile`
-/

namespace Stratagem

open Jvm

/- A class under construction. -/
structure ClassDraft where
  version : UInt16
  access : UInt16
  name : String
  pool : ConstantPool
  thisClass : UInt16
  superClass : UInt16
  interfaces : List UInt16 := []
  fields : Array Member := #[]
  methods : Array Member := #[]
  attributes : Array Attribute := #[]

/- A step of making a class. -/
abbrev Drafting :=
  ExceptT ClassFileError (StateM ClassDraft)

namespace ClassDraft

/- A class without members. -/
def start
    (version access : UInt16)
    (name superName : String) :
    Except ClassFileError ClassDraft :=
  let names : Pooling (UInt16 × UInt16) := do
    let thisClass ← Pooling.classRef name
    let superClass ← Pooling.classRef superName
    return (thisClass, superClass)
  match names.run {} with
  | (.error e, _) => .error e
  | (.ok (thisClass, superClass), pool) =>
      .ok { version, access, name, pool, thisClass, superClass }

/- A method without code; its parameters have their slots. -/
def method
    (c : ClassDraft)
    (access : UInt16)
    (name : String)
    (signature : MethodSig)
    (paramNames : List String) :
    Except ClassFileError MethodDraft :=
  match signature.descriptor with
  | .error e => .error (.type e)
  | .ok descriptor => do
      let generic := signature.signature
      let m : MethodDraft :=
        { className := c.name
          version := c.version
          access
          name
          descriptor
          signature :=
            if generic = descriptor then none else some generic
          pool := c.pool }
      let m ← m.declareThis
      m.declareParams paramNames 0 signature.params

/- The class file. -/
def toClassFile
    (c : ClassDraft) : ClassFile :=
  { major := c.version
    pool := c.pool
    access := c.access
    thisClass := c.thisClass
    superClass := c.superClass
    interfaces := c.interfaces
    fields := c.fields.toList
    methods := c.methods.toList
    attributes := c.attributes.toList }

end ClassDraft

namespace Drafting

/- A step on the constant pool. -/
def pooled
    {α : Type}
    (x : Pooling α) : Drafting α := fun c =>
  let pool := c.pool
  let c := { c with pool := {} }
  let (result, pool) := x pool
  (result, { c with pool })

/- Implement an interface, once. -/
def addInterface
    (name : String) : Drafting Unit := do
  let index ← pooled (Pooling.classRef name)
  modify fun c =>
    if c.interfaces.contains index then c
    else { c with interfaces := c.interfaces ++ [index] }

/- Attach the signature of the class. -/
def setSignature
    (signature : String) : Drafting Unit := do
  let a ← pooled (MethodDraft.signatureAttribute signature)
  modify fun c => { c with attributes := c.attributes.push a }

/- The parts of a field: its name, descriptor and attributes. -/
def fieldParts
    (access : UInt16)
    (name : String)
    (ty : Ty) : Pooling Member := do
  let name ← Pooling.text name
  match ty.descriptor with
  | .error e => throw (.type e)
  | .ok text =>
      let descriptor ← Pooling.text text
      let generic :=
        if ty.signature = text then [] else [ty.signature]
      let attributes ←
        generic.mapM MethodDraft.signatureAttribute
      return { access, name, descriptor, attributes }

/- Add a field. -/
def addField
    (access : UInt16)
    (name : String)
    (ty : Ty) : Drafting Unit := do
  let m ← pooled (fieldParts access name ty)
  modify fun c => { c with fields := c.fields.push m }

/-
  Go on with the constant pool of a draft, and add the method
  if the draft was finished.
-/
def close
    (m : MethodDraft)
    (result : Except ClassFileError Member) : Drafting Unit := do
  modify fun c => { c with pool := m.pool }
  match result with
  | .error e => throw e
  | .ok member =>
      modify fun c => { c with methods := c.methods.push member }

end Drafting

end Stratagem

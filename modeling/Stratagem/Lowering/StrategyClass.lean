import Stratagem.ClassFile.Compiled
import Stratagem.Lowering.Body

/-
  The class of a strategy.

  The class has one object, which `getInstance` gives.  Its
  method `eval` holds the body, and where the interface asks
  for another `eval`, that one calls the first.

  Key definitions include:
    * `Generating`
    * `Context.nullCheck`
    * `Context.writeEval`
    * `Context.writeBridge`
    * `Context.compileStrategy`
-/

namespace Stratagem

open Jvm

------------------------------------------------------------
-- Flags
------------------------------------------------------------

namespace Access

/- For all to see. -/
def isPublic : UInt16 :=
  0x0001

/- For the class itself. -/
def isPrivate : UInt16 :=
  0x0002

/- Never changed or overridden. -/
def isFinal : UInt16 :=
  0x0010

/- Calls of inherited methods find the nearest one. -/
def isSuper : UInt16 :=
  0x0020

/- A method that only calls another. -/
def isBridge : UInt16 :=
  0x0040

/- A method that no program text has. -/
def isSynthetic : UInt16 :=
  0x1000

end Access

------------------------------------------------------------
-- Steps
------------------------------------------------------------

/- A step of writing a class. -/
abbrev Generating :=
  StateT ClassDraft (Except CompileError)

namespace Generating

/- A step whose error is about the class file. -/
def draft
    {α : Type}
    (x : Drafting α) : Generating α :=
  orGiveUp .classFile x

/- A method with a body. -/
def method
    {α : Type}
    (access : UInt16)
    (name : String)
    (signature : MethodSig)
    (paramNames : List String)
    (body : Assembling α) : Generating α := do
  match (← get).method access name signature paramNames with
  | .error e => throw (.classFile e)
  | .ok m =>
      let (a, m) ← liftExcept (body m)
      let (result, m) := MethodDraft.finish m
      draft (Drafting.close m result)
      return a

/- A method whose steps have errors of one sort only. -/
def simpleMethod
    (access : UInt16)
    (name : String)
    (signature : MethodSig)
    (body : Emitter Unit) : Generating Unit :=
  method access name signature [] (Assembling.emit body)

end Generating

namespace Context

open Assembling (emit)

/- The field that holds the one object. -/
def instanceField : String :=
  "instance"

/- Neither parameters nor a result. -/
def voidSignature : MethodSig :=
  { result := .primitive .void, params := [] }

/- A string and no parameters. -/
def stringSignature : MethodSig :=
  { result := Known.string, params := [] }

------------------------------------------------------------
-- The One Object
------------------------------------------------------------

/- The constructor, which does nothing of its own. -/
def writeConstructor : Generating Unit :=
  Generating.simpleMethod Access.isPrivate "<init>"
    voidSignature do
      Emitter.loadThis
      Emitter.invoke .special "java/lang/Object" "<init>" "()V"
      Emitter.returnValue (.primitive .void)

/- The method that gives the one object. -/
def writeGetInstance
    (owner : String)
    (ty : Ty) : Generating Unit :=
  Generating.simpleMethod
    (Access.isPublic ||| staticFlag ||| Access.isFinal)
    "getInstance" { result := ty, params := [] } do
      Emitter.getstatic owner instanceField ty
      Emitter.returnValue ty

/- The code that makes the one object. -/
def writeStaticInit
    (owner : String)
    (ty : Ty) : Generating Unit :=
  Generating.simpleMethod staticFlag "<clinit>"
    voidSignature do
      Emitter.new owner
      Emitter.dup
      Emitter.invoke .special owner "<init>" "()V"
      Emitter.putstatic owner instanceField ty
      Emitter.returnValue (.primitive .void)

------------------------------------------------------------
-- The Body
------------------------------------------------------------

/- The local of a parameter, or what is wrong without it. -/
def parameter
    (position : Nat)
    (missing : Mismatch) : Assembling Local := do
  match (← get).parameter? position with
  | some l => return l
  | none => throw (.mismatch missing)

/- Throw an exception if a parameter is null. -/
def nullCheck
    (l : Local)
    (name className : String) : Emitter Unit := do
  let npe := "java/lang/NullPointerException"
  let nonNull ← Emitter.newLabel
  Emitter.load l
  Emitter.ifnonnull nonNull
  Emitter.new npe
  Emitter.dup
  Emitter.ldcString
    (s!"Non-null parameter is null: method {className}.eval, " ++
      s!"parameter {name}")
  Emitter.invoke .special npe "<init>" "(Ljava/lang/String;)V"
  Emitter.athrow
  Emitter.bind nonNull

/- Check the parameters that can be null, from a position on. -/
def nullChecks
    (className : String) :
    Nat → List (String × Ty) → Assembling Unit
  | _, [] => return ()
  | position, (name, ty) :: rest => do
      if ty.isReference then
        let l ← parameter position (.missingChecked name)
        emit (nullCheck l name className)
      nullChecks className (position + 1) rest

/- Bind the names of parameters, from a position on. -/
def bindParams
    (env : Environment) :
    Nat → List String → Assembling Environment
  | _, [] => return env
  | position, name :: rest => do
      let l ← parameter position (.missingParameter name)
      bindParams (env.bind name l) (position + 1) rest

/- The method that holds the body; the result is its signature. -/
def writeEval
    (c : Context)
    (decl : StrategyDecl)
    (definition : StrategyDef)
    (ty : Ty) : Generating MethodSig := do
  let signature ← liftExcept (c.evalSignature decl.ty)
  let names :=
    "ctx" :: definition.paramNames ++ [definition.input]
  Generating.method Access.isPublic "eval" signature names do
    nullChecks ty.display 0 (names.zip signature.params)
    let ctx ← parameter 0 .missingContext
    let env ← bindParams {} 0 names
    let result ← c.assemble definition.body env ctx
    coerce result signature.result
    emit (Emitter.returnValue signature.result)
  return signature

/- Load parameters as values of types, from a position on. -/
def loadParams :
    Nat → List Ty → Assembling Unit
  | _, [] => return ()
  | position, ty :: rest => do
      let l ← parameter position (.missingForwarded position)
      emit (Emitter.load l)
      emit (Emitter.unbox ty)
      loadParams (position + 1) rest

/-
  The method of the interface.  It is not written if the
  method that holds the body is the same.
-/
def writeBridge
    (decl : StrategyDecl)
    (owner : String)
    (eval : MethodSig) : Generating Unit := do
  let bridge := bridgeSignature decl.ty.arity
  let descriptor ← liftExcept (ofTypeError eval.descriptor)
  let erased ← liftExcept (ofTypeError bridge.descriptor)
  if erased = descriptor then
    return ()
  let names :=
    "ctx" :: (List.range decl.ty.arity).map (fun i => s!"arg{i + 1}") ++
      ["input"]
  Generating.method
    (Access.isPublic ||| Access.isBridge ||| Access.isSynthetic)
    "eval" bridge names do
      emit Emitter.loadThis
      loadParams 0 eval.params
      emit (Emitter.invoke .virtual owner "eval" descriptor)
      emit (Emitter.box eval.result)
      emit (Emitter.returnValue Known.object)

------------------------------------------------------------
-- Texts
------------------------------------------------------------

/- The method that gives the name of the strategy. -/
def writeGetName
    (name : String) : Generating Unit :=
  Generating.simpleMethod Access.isPublic "getName"
    stringSignature do
      Emitter.ldcString name
      Emitter.returnValue Known.string

/- The method that gives the name with brackets behind it. -/
def writeToString
    (owner : String) : Generating Unit :=
  let builder := "java/lang/StringBuilder"
  let append :=
    "(Ljava/lang/String;)Ljava/lang/StringBuilder;"
  let string := "()Ljava/lang/String;"
  Generating.simpleMethod Access.isPublic "toString"
    stringSignature do
      Emitter.new builder
      Emitter.dup
      Emitter.invoke .special builder "<init>" "()V"
      Emitter.loadThis
      Emitter.invoke .virtual owner "getName" string
      Emitter.invoke .virtual builder "append" append
      Emitter.ldcString "(..)"
      Emitter.invoke .virtual builder "append" append
      Emitter.invoke .virtual builder "toString" string
      Emitter.returnValue Known.string

------------------------------------------------------------
-- The Class
------------------------------------------------------------

/- All members of the class. -/
def writeMembers
    (c : Context)
    (decl : StrategyDecl)
    (definition : StrategyDef)
    (interface owner : String)
    (ty : Ty) : Generating Unit := do
  Generating.draft (Drafting.addInterface interface)
  let signature ← liftExcept (c.classSignature decl)
  Generating.draft (Drafting.setSignature signature.signature)
  Generating.draft
    (Drafting.addField
      (Access.isPrivate ||| staticFlag ||| Access.isFinal)
      instanceField ty)
  writeConstructor
  writeGetInstance owner ty
  let eval ← c.writeEval decl definition ty
  writeBridge decl owner eval
  writeGetName decl.name.simple
  writeToString owner
  writeStaticInit owner ty

/- The definition fits its declaration and is in normal form. -/
def checkDefinition
    (decl : StrategyDecl)
    (definition : StrategyDef) : Except CompileError Unit :=
  let declared := decl.ty.arity
  let defined := definition.params.length
  if defined ≠ declared then
    .error
      (.mismatch (.parameterCount decl.name declared defined))
  else if !definition.body.isNormal then
    .error (.mismatch (.notNormal definition.name.display))
  else
    .ok ()

/- The class file of a definition. -/
def generate
    (c : Context)
    (decl : StrategyDecl)
    (definition : StrategyDef) :
    Except CompileError CompiledClass := do
  checkDefinition decl definition
  let ty := strategyClass decl
  let owner ← ofTypeError ty.internalName
  let interface ← c.config.strategyInterface decl.ty.arity
  match ClassDraft.start c.config.classVersion
      (Access.isPublic ||| Access.isFinal ||| Access.isSuper)
      owner "java/lang/Object" with
  | .error e => .error (.classFile e)
  | .ok draft =>
      let (_, draft) ←
        (c.writeMembers decl definition interface owner ty).run
          draft
      match CompiledClass.ofTy ty
          draft.toClassFile.toBytes.toArray with
      | .error e => .error (.classFile e)
      | .ok compiled => .ok compiled

/- The class of a definition, checked if the settings say so. -/
def compileStrategy
    (c : Context)
    (decl : StrategyDecl)
    (definition : StrategyDef) :
    Except CompileError CompiledClass := do
  let compiled ← c.generate decl definition
  if c.config.verify then
    match compiled.check with
    | .error e => .error (.verification e)
    | .ok () => .ok compiled
  else
    .ok compiled

end Context

end Stratagem

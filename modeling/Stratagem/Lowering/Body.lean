import Stratagem.Assembly.ClassDraft
import Stratagem.Lowering.Context
import Stratagem.Lowering.Environment

/-
  Code for expressions in normal form.

  Every binding gets a local of its own, and the value of the
  last computation stays on the stack.

  Key definitions include:
    * `Assembling`
    * `Context.coerce`
    * `Context.immediate`
    * `Context.compound`
    * `Context.spine`
    * `Context.assemble`
-/

namespace Stratagem

open Jvm

/- A step of writing the body of a method. -/
abbrev Assembling :=
  StateT MethodDraft (Except CompileError)

/- A step that gives up where another one fails. -/
def orGiveUp
    {σ ε ε' α : Type}
    (wrap : ε → ε')
    (x : ExceptT ε (StateM σ) α) : StateT σ (Except ε') α := fun s =>
  match x s with
  | (.ok a, s) => .ok (a, s)
  | (.error e, _) => .error (wrap e)

/- A step whose error is about the class file. -/
def Assembling.emit
    {α : Type}
    (x : Emitter α) : Assembling α :=
  orGiveUp .classFile x

namespace Context

open Assembling (emit)

------------------------------------------------------------
-- Conversions
------------------------------------------------------------

/-
  Turn the top of the stack into a value of another type.
  Nothing is written if the erased types are the same.
-/
def coerce
    (source target : Ty) : Assembling Unit := do
  let d ← liftExcept (ofTypeError source.descriptor)
  let e ← liftExcept (ofTypeError target.descriptor)
  if d = e then
    return ()
  match source.isPrimitive, target.isPrimitive with
  | false, false => emit (Emitter.checkcast target)
  | true, false => do
      emit (Emitter.box source)
      emit (Emitter.checkcast target)
  | false, true => emit (Emitter.unbox target)
  | true, true => throw (.mismatch (.conversion source target))

------------------------------------------------------------
-- Operands
------------------------------------------------------------

/-
  The declaration that a free name means: by its pointer, in
  the package, or in the package that is searched last.
-/
def resolve
    (c : Context)
    (name : String)
    (pointer : Option Pointer) : Except CompileError Decl :=
  match pointer.bind c.symbols.get? with
  | some d => .ok d
  | none => do
      let last ← c.config.defaultPackageName
      let found :=
        [c.package, last].findSome? fun p =>
          (QName.ofText? p name).bind c.symbols.named?
      match found with
      | some d => return d
      | none => throw (.unresolved name)

/- Push the one object of a declared strategy. -/
def global
    (c : Context)
    (name : String)
    (pointer : Option Pointer) : Assembling Ty := do
  match ← liftExcept (c.resolve name pointer) with
  | .classType d => throw (.unsupported (.classAsValue d.name))
  | .strategy d =>
      let ty := strategyClass d
      let owner ← liftExcept (ofTypeError ty.internalName)
      let result ← liftExcept (ofTypeError ty.descriptor)
      emit (Emitter.invoke .static owner "getInstance"
        s!"(){result}")
      return ty

/- Push an integer as a value of a type. -/
def literal
    (c : Context)
    (value : Int32)
    (ty : ValueType) : Assembling Ty := do
  let target ← liftExcept (c.lower ty)
  match target with
  | .primitive .long => do
      emit (Emitter.lconst value.toInt64)
      return target
  | .primitive .float => do
      emit (Emitter.fconst (.ofInt value.toInt))
      return target
  | .primitive .double => do
      emit (Emitter.dconst (.ofInt value.toInt))
      return target
  | .primitive _ => do
      emit (Emitter.iconst value)
      return target
  | _ => do
      emit (Emitter.iconst value)
      emit (Emitter.box (.primitive .int))
      return Ty.asReference (.primitive .int)

/- Push a new object without any more to it. -/
def newObject : Emitter Unit := do
  Emitter.new "java/lang/Object"
  Emitter.dup
  Emitter.invoke .special "java/lang/Object" "<init>" "()V"

/- The type that a local was made for. -/
def localTy
    (l : Local) : Assembling Ty := do
  match (← get).locals[l.index]? with
  | some v => return v.ty
  | none => throw (.mismatch (.missingLocal l.index))

/- Push the value of a variable or a constant. -/
def immediate
    (c : Context)
    (env : Environment) : Exp → Assembling Ty
  | .var name pointer _ =>
      match env.get? name with
      | some l => do
          emit (Emitter.load l)
          localTy l
      | none => c.global name pointer
  | .int value ty => c.literal value ty
  | .str value _ => do
      emit (Emitter.ldcString value)
      return Known.string
  | .object _ => do
      emit newObject
      return Known.object
  | e => throw (.mismatch (.notImmediate e.kindName))

/- Push operands as objects, from left to right. -/
def boxedArgs
    (c : Context)
    (env : Environment) : List Exp → Assembling Unit
  | [] => return ()
  | e :: es => do
      let ty ← c.immediate env e
      emit (Emitter.box ty)
      c.boxedArgs env es

------------------------------------------------------------
-- Computations
------------------------------------------------------------

/- Supply arguments to a strategy. -/
def application
    (c : Context)
    (env : Environment)
    (function : Exp)
    (args : List Exp) : Assembling Ty := do
  let s ← liftExcept
    (function.ty.asStrategy "applied expression")
  let rest ← liftExcept (s.supply args.length)
  let ty ← c.immediate env function
  if args.isEmpty then
    return ty
  let target ← liftExcept (c.strategyTy s)
  coerce ty target
  c.boxedArgs env args
  let owner ← liftExcept (c.config.strategyInterface s.arity)
  let descriptor ← liftExcept
    (c.applyDescriptor args.length rest.arity)
  emit (Emitter.invoke .interface owner "apply" descriptor)
  liftExcept (c.strategyTy rest)

/- Run a strategy on an input. -/
def evaluation
    (c : Context)
    (env : Environment)
    (ctx : Local)
    (strategy input : Exp)
    (ty : ValueType) : Assembling Ty := do
  let s ← liftExcept
    (strategy.ty.asStrategy "evaluated expression")
  if s.arity ≠ 0 then
    throw (.mismatch (.missingArguments s.arity))
  let source ← c.immediate env strategy
  let target ← liftExcept (c.strategyTy s)
  coerce source target
  emit (Emitter.load ctx)
  let inputTy ← c.immediate env input
  emit (Emitter.box inputTy)
  let owner ← liftExcept (c.config.strategyInterface 0)
  let descriptor ← liftExcept
    (ofTypeError (bridgeSignature 0).descriptor)
  emit (Emitter.invoke .interface owner "eval" descriptor)
  let result ← liftExcept (c.lower ty)
  emit (Emitter.unbox result)
  return result

/- One computation, whose value stays on the stack. -/
def compound
    (c : Context)
    (env : Environment)
    (ctx : Local) : Exp → Assembling Ty
  | .apply function args _ => c.application env function args
  | .eval strategy input ty =>
      c.evaluation env ctx strategy input ty
  | .seq _ _ _ => throw (.unsupported .sequence)
  | .letIn _ _ _ _ => throw (.mismatch .letOperand)
  | e => c.immediate env e

/- Bindings one after another, and then the last computation. -/
def spine
    (c : Context)
    (ctx : Local) : Exp → Environment → Assembling Ty
  | .letIn name bound body _, env => do
      let ty ← liftExcept (c.lower bound.ty)
      let source ← c.compound env ctx bound
      coerce source ty
      let l ← emit (Emitter.newLocal name ty)
      emit (Emitter.store l)
      c.spine ctx body (env.bind name l)
  | e, env => c.compound env ctx e

/- Write an expression, and give the type of its value. -/
def assemble
    (c : Context)
    (e : Exp)
    (env : Environment)
    (ctx : Local) : Assembling Ty := do
  if !e.isNormal then
    throw (.mismatch (.notNormal (← get).name))
  c.spine ctx e env

end Context

end Stratagem

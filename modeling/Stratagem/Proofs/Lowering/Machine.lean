import Stratagem.Proofs.Lowering.Code
import Stratagem.Proofs.Program.Meaning

/-
  Running expressions and running code.

  Nothing is assumed of the values that run: constants stand
  for values, and what a call gives depends on the calls before
  it.  An expression and the code written for it are run with
  the same calls.

  Key definitions include:
    * `Event`
    * `World`
    * `Exp.run`
    * `Machine`
    * `Action.step`
    * `Machine.run`
-/

namespace Stratagem

open Jvm

universe u

------------------------------------------------------------
-- Calls
------------------------------------------------------------

/- A call that is made while an expression or code runs. -/
inductive Event (V : Type u) where
  | getInstance (owner : String)
  | create (name : String)
  | apply (function : V) (args : List V)
  | eval (strategy context input : V)

/-
  What constants stand for, and what a call gives, given the
  calls before it.
-/
structure World (V : Type u) where
  constant : Literal → V
  answer : List (Event V) → Event V → V

/- Something that may fail, and that is recorded. -/
abbrev Recorded (V : Type u) :=
  StateT (List (Event V)) Option

variable {V : Type u}

namespace World

/- Make a call. -/
def call
    (w : World V)
    (e : Event V) : Recorded V V := fun trace =>
  some (w.answer trace e, trace ++ [e])

/- Supply arguments by a call, if only of none. -/
def supplyAlways
    (w : World V)
    (function : V)
    (args : List V) : Recorded V V :=
  w.call (.apply function args)

/- Supply arguments by a call; without them nothing is done. -/
def supply
    (w : World V)
    (function : V) : List V → Recorded V V
  | [] => pure function
  | args => w.call (.apply function args)

end World

------------------------------------------------------------
-- Expressions
------------------------------------------------------------

/- An integer of a type as a constant. -/
def Literal.ofInt
    (n : Int32) : ValueType → Literal
  | .base .long => .long n.toInt64
  | .base .ulong => .long n.toInt64
  | .base .float => .float (.ofInt n.toInt)
  | .base .double => .double (.ofInt n.toInt)
  | _ => .int n

mutual

/-
  Run an expression in a context.  A name that is not in scope
  means the one object of the strategy declared by that name.
-/
def Exp.run
    (c : Context)
    (w : World V)
    (supply : V → List V → Recorded V V)
    (context : V)
    (scope : Scope V) : Exp → Recorded V V
  | .letIn name bound body _ => do
      let v ← bound.run c w supply context scope
      body.run c w supply context (scope.bind name v)
  | .apply function args _ => do
      let f ← function.run c w supply context scope
      let vs ← runAll c w supply context scope args
      supply f vs
  | .eval strategy input _ => do
      let s ← strategy.run c w supply context scope
      let v ← input.run c w supply context scope
      w.call (.eval s context v)
  | .seq _ _ _ => failure
  | .var name pointer _ =>
      match scope name, c.resolve name pointer with
      | some v, _ => pure v
      | none, .ok (.strategy d) =>
          w.call (.getInstance (d.name.internalName "Strategy"))
      | none, _ => failure
  | .int n ty => pure (w.constant (.ofInt n ty))
  | .str s _ => pure (w.constant (.string s))
  | .object _ => w.call (.create "java/lang/Object")

/- Operands from left to right. -/
def runAll
    (c : Context)
    (w : World V)
    (supply : V → List V → Recorded V V)
    (context : V)
    (scope : Scope V) : List Exp → Recorded V (List V)
  | [] => pure []
  | e :: es => do
      let v ← e.run c w supply context scope
      let vs ← runAll c w supply context scope es
      return v :: vs

end

------------------------------------------------------------
-- The Machine
------------------------------------------------------------

/- What a slot holds; a wide value also takes the next slot. -/
inductive Cell (V : Type u) where
  | empty
  | single (v : V)
  | double (v : V)
  | second

/- The stack, whose head is its top, the slots and the calls. -/
structure Machine (V : Type u) where
  stack : List V
  cells : Nat → Cell V
  trace : List (Event V)

namespace Machine

/- The value of so many slots from a slot on. -/
def read?
    (s : Machine V)
    (width slot : Nat) : Option V :=
  match width, s.cells slot, s.cells (slot + 1) with
  | 1, .single v, _ => some v
  | 2, .double v, .second => some v
  | _, _, _ => none

/- Put a value into so many slots from a slot on. -/
def write
    (s : Machine V)
    (width slot : Nat)
    (v : V) : Machine V :=
  { s with
    cells := fun k =>
      if k = slot then
        if width = 2 then .double v else .single v
      else if k = slot + 1 ∧ width = 2 then .second
      else s.cells k }

/- Put a value on the stack. -/
def push
    (s : Machine V)
    (v : V) : Machine V :=
  { s with stack := v :: s.stack }

/- Push what a call gives. -/
def call
    (w : World V)
    (e : Event V)
    (s : Machine V) : Machine V :=
  { s with
    stack := w.answer s.trace e :: s.stack
    trace := s.trace ++ [e] }

end Machine

------------------------------------------------------------
-- Methods
------------------------------------------------------------

/- The number of parameters of a method. -/
def MemberRef.arity?
    (m : MemberRef) : Option Nat :=
  (parseMethodDescriptor m.descriptor).toOption.map
    (·.1.length)

/- The primitives whose values can be wrapped. -/
def wrapped : List Primitive :=
  [.boolean, .char, .byte, .short, .int, .long, .float, .double]

/- Whether a method wraps the values of a primitive. -/
def MemberRef.isWrapping
    (m : MemberRef) : Bool :=
  m.name == "valueOf" && wrapped.any fun p =>
    p.boxClass? == some m.owner &&
      m.descriptor == (wrapping p m.owner).descriptor

/- Whether a method unwraps the values of a primitive. -/
def MemberRef.isUnwrapping
    (m : MemberRef) : Bool :=
  wrapped.any fun p =>
    p.boxClass? == some m.owner &&
      m.name == (unwrapping p m.owner).name &&
        m.descriptor == (unwrapping p m.owner).descriptor

/- The calls that code can make. -/
inductive Callee where
  | getInstance
  | wrap
  | unwrap
  | construct
  | apply (arity : Nat)
  | eval

/- What a call means, by the method that it names. -/
def MemberRef.callee?
    (m : MemberRef) : CallKind → Option Callee
  | .static =>
      if m.isWrapping then some .wrap
      else if m.name = "getInstance" ∧ m.arity? = some 0 then
        some .getInstance
      else none
  | .virtual => if m.isUnwrapping then some .unwrap else none
  | .special =>
      if m.name = "<init>" ∧ m.arity? = some 0 then
        some .construct
      else none
  | .interface =>
      if m.name = "apply" then m.arity?.map .apply
      else if m.name = "eval" ∧ m.arity? = some 2 then some .eval
      else none

namespace Machine

/- Arguments stand on the stack in order, the last on its top. -/
def supply
    (w : World V)
    (arity : Nat)
    (s : Machine V) : Option (Machine V) :=
  match s.stack.drop arity with
  | f :: rest =>
      some (call w (.apply f (s.stack.take arity).reverse)
        { s with stack := rest })
  | [] => none

/-
  Call a method.  A value is the same wrapped and unwrapped,
  and an object is the same before and after its construction.
-/
def invoke
    (w : World V)
    (kind : CallKind)
    (m : MemberRef)
    (s : Machine V) : Option (Machine V) :=
  match m.callee? kind, s.stack with
  | some .getInstance, _ =>
      some (s.call w (.getInstance m.owner))
  | some .wrap, _ :: _ => some s
  | some .unwrap, _ :: _ => some s
  | some .construct, _ :: rest => some { s with stack := rest }
  | some (.apply n), _ => s.supply w n
  | some .eval, v :: context :: strategy :: rest =>
      some (call w (.eval strategy context v)
        { s with stack := rest })
  | _, _ => none

end Machine

/- Do an action; straight code needs no more than these. -/
def Action.step
    (w : World V)
    (a : Action)
    (s : Machine V) : Option (Machine V) :=
  match a, s.stack with
  | .push l, _ => some (s.push (w.constant l))
  | .load f slot, _ => (s.read? f.slots slot).map s.push
  | .store f slot, v :: rest =>
      some ({ s with stack := rest }.write f.slots slot v)
  | .dup, v :: _ => some (s.push v)
  | .new _ name, _ => some (s.call w (.create name))
  | .checkcast _, _ :: _ => some s
  | .invoke kind m, _ => s.invoke w kind m
  | _, _ => none

/- Do actions one after another. -/
def Machine.runActions
    (w : World V)
    (as : List Action)
    (s : Machine V) : Option (Machine V) :=
  as.foldlM (fun s a => a.step w s) s

/- Run instructions that find their names in a pool. -/
def Machine.run
    (w : World V)
    (p : ConstantPool)
    (is : List Instruction)
    (s : Machine V) : Option (Machine V) :=
  is.foldlM (fun s i => (i.action? p).bind (·.step w s)) s

end Stratagem

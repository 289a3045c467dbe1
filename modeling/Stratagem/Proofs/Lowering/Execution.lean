import Stratagem.Proofs.Assembly.Effects

/-
  Running straight code in any surroundings.

  What a machine does when code asks it for an object, a cast,
  a field or a call may fail, change a heap or print something.
  Nothing is assumed of it but that what comes first is done
  first.  So two pieces of code that ask for the same things in
  the same order are the same to every machine.

  Key definitions include:
    * `Runtime`
    * `Ending`
    * `Runtime.run`
    * `Runtime.convert`
    * `Runtime.box`

  Main declarations:
    * `Runtime.run_call`
    * `Runtime.run_unbox`
    * `Runtime.run_box`
-/

namespace Stratagem

open Jvm

universe u v

------------------------------------------------------------
-- The Machine
------------------------------------------------------------

/- How many values a call takes, and whether it gives one. -/
def MemberRef.exchange?
    (m : MemberRef)
    (kind : CallKind) : Option (Nat × Bool) :=
  (parseMethodDescriptor m.descriptor).toOption.map
    fun (params, result) =>
      (params.length + kind.receivers, !result.isVoid)

/- What straight code asks a machine for. -/
structure Runtime (M : Type u → Type v) (V : Type u) where
  constant : Literal → M V
  create : String → M V
  cast : String → V → M PUnit
  get : MemberRef → M V
  set : MemberRef → V → M PUnit
  call : CallKind → MemberRef → List V → M V

/- How code ends. -/
inductive Ending (V : Type u) where
  | stuck
  | nothing
  | value (v : V)
  | thrown (v : V)

variable {M : Type u → Type v} {V : Type u}

namespace Runtime

variable [Monad M]

/-
  Run code that leaves its locals alone, from a stack whose
  head is its top.  The last argument of a call is on top.
-/
def run
    (r : Runtime M V)
    (locals : Nat → Option V) :
    List Action → List V → M (Ending V)
  | .push l :: as, stack => do
      let v ← r.constant l
      r.run locals as (v :: stack)
  | .load _ slot :: as, stack =>
      match locals slot with
      | some v => r.run locals as (v :: stack)
      | none => return .stuck
  | .pop :: as, _ :: stack => r.run locals as stack
  | .dup :: as, v :: stack => r.run locals as (v :: v :: stack)
  | .swap :: as, v :: w :: stack =>
      r.run locals as (w :: v :: stack)
  | .new _ name :: as, stack => do
      let v ← r.create name
      r.run locals as (v :: stack)
  | .checkcast name :: as, v :: stack => do
      r.cast name v
      r.run locals as (v :: stack)
  | .getstatic field :: as, stack => do
      let v ← r.get field
      r.run locals as (v :: stack)
  | .putstatic field :: as, v :: stack => do
      r.set field v
      r.run locals as stack
  | .invoke kind method :: as, stack =>
      match method.exchange? kind with
      | none => return .stuck
      | some (count, gives) =>
          if stack.length < count then
            return .stuck
          else do
            let v ← r.call kind method (stack.take count).reverse
            let rest := stack.drop count
            r.run locals as (if gives then v :: rest else rest)
  | .returnVoid :: _, _ => return .nothing
  | .returnValue _ :: _, v :: _ => return .value v
  | .throw :: _, v :: _ => return .thrown v
  | _, _ => return .stuck

------------------------------------------------------------
-- Conversions
------------------------------------------------------------

/- An object as one of the class that a type has. -/
def castTo
    (r : Runtime M V)
    (t : Ty)
    (v : V) : M V :=
  match VType.ofTy t with
  | .object name =>
      if name = "java/lang/Object" then
        return v
      else do
        r.cast name v
        return v
  | _ => return v

/- An object as a value of a type. -/
def convert
    (r : Runtime M V)
    (t : Ty)
    (v : V) : M V :=
  match t with
  | .primitive p =>
      match p.boxClass? with
      | some name => do
          r.cast name v
          r.call .virtual (.unwrapping p name) [v]
      | none => return v
  | t => r.castTo t v

/- Objects as values of types, one after another. -/
def convertAll
    (r : Runtime M V) : List Ty → List V → M (List V)
  | t :: ts, v :: vs => do
      let w ← r.convert t v
      let ws ← r.convertAll ts vs
      return w :: ws
  | _, _ => return []

/- A value of a type as an object. -/
def box
    (r : Runtime M V)
    (t : Ty)
    (v : V) : M V :=
  match t with
  | .primitive p =>
      match p.boxClass? with
      | some name => r.call .static (.wrapping p name) [v]
      | none => return v
  | _ => return v

------------------------------------------------------------
-- Running Conversions
------------------------------------------------------------

variable {r : Runtime M V} {locals : Nat → Option V}

/- A call takes its arguments from the top of the stack. -/
theorem run_call
    {kind : CallKind}
    {m : MemberRef}
    {gives : Bool}
    (args : List V)
    (as : List Action)
    (stack : List V)
    (hCall : m.exchange? kind = some (args.length, gives)) :
    r.run locals (.invoke kind m :: as) (args.reverse ++ stack) =
      r.call kind m args >>= fun v =>
        r.run locals as (if gives then v :: stack else stack) := by
  have hLength : args.reverse.length = args.length := by simp
  rw [run, hCall]
  simp only [List.length_append, hLength]
  rw [if_neg (by omega), List.take_left' hLength,
    List.drop_left' hLength, List.reverse_reverse]

theorem exchange?_wrapping
    {p : Primitive}
    {name : String}
    (hClass : p.boxClass? = some name) :
    (MemberRef.wrapping p name).exchange? .static =
      some (1, true) := by
  cases p <;> cases hClass <;> rfl

theorem exchange?_unwrapping
    {p : Primitive}
    {name : String}
    (hClass : p.boxClass? = some name) :
    (MemberRef.unwrapping p name).exchange? .virtual =
      some (1, true) := by
  cases p <;> cases hClass <;> rfl

theorem run_box
    [LawfulMonad M]
    (t : Ty)
    (as : List Action)
    (v : V)
    (stack : List V) :
    r.run locals (boxActions t ++ as) (v :: stack) =
      r.box t v >>= fun w =>
        r.run locals as (w :: stack) := by
  cases t with
  | primitive p =>
      cases hClass : p.boxClass? with
      | none => simp [boxActions, box, hClass]
      | some name =>
          simp only [boxActions, box, hClass]
          exact run_call [v] as stack
            (exchange?_wrapping hClass)
  | _ => simp [boxActions, box]

theorem run_castActions
    [LawfulMonad M]
    (t : Ty)
    (as : List Action)
    (v : V)
    (stack : List V) :
    r.run locals (castActions t ++ as) (v :: stack) =
      r.castTo t v >>= fun w =>
        r.run locals as (w :: stack) := by
  unfold castActions castTo
  cases VType.ofTy t with
  | object name =>
      dsimp only
      split
      case isTrue => simp
      case isFalse => simp [run]
  | _ => simp

theorem run_unbox
    [LawfulMonad M]
    (t : Ty)
    (as : List Action)
    (v : V)
    (stack : List V) :
    r.run locals (unboxActions t ++ as) (v :: stack) =
      r.convert t v >>= fun w =>
        r.run locals as (w :: stack) := by
  cases t with
  | primitive p =>
      cases hClass : p.boxClass? with
      | none => simp [unboxActions, convert, hClass]
      | some name =>
          simp only [unboxActions, convert, hClass,
            List.cons_append, List.nil_append, run, bind_assoc]
          refine bind_congr fun _ => ?_
          exact run_call [v] as stack
            (exchange?_unwrapping hClass)
  | array t => exact run_castActions (.array t) as v stack
  | object c => exact run_castActions (.object c) as v stack
  | «variable» x => exact run_castActions (.variable x) as v stack
  | argument a => exact run_castActions (.argument a) as v stack

------------------------------------------------------------
-- Handing a Call On
------------------------------------------------------------

/- Only lists of so many values come from so many objects. -/
theorem convertAll_congr
    [LawfulMonad M]
    {α : Type u}
    {ts : List Ty}
    {vs : List V}
    {f g : List V → M α}
    (hLength : vs.length = ts.length)
    (hSame : ∀ ws : List V, ws.length = ts.length →
      f ws = g ws) :
    r.convertAll ts vs >>= f = r.convertAll ts vs >>= g := by
  induction ts generalizing vs f g with
  | nil => simp [convertAll, hSame []]
  | cons t ts ih =>
      cases vs with
      | nil => cases hLength
      | cons v vs =>
          simp only [convertAll, bind_assoc, pure_bind]
          refine bind_congr fun w => ?_
          refine ih (Nat.succ.inj hLength) fun ws hCount => ?_
          exact hSame (w :: ws) (congrArg Nat.succ hCount)

/- Objects in a row are loaded as values, in their order. -/
theorem run_loads
    [LawfulMonad M]
    {ts : List Ty}
    {vs : List V}
    {slot : Nat}
    (as : List Action)
    (stack : List V)
    (hLength : vs.length = ts.length)
    (hLocals : ∀ i, locals (slot + i) = vs[i]?) :
    r.run locals (loadActions slot ts ++ as) stack =
      r.convertAll ts vs >>= fun ws =>
        r.run locals as (ws.reverse ++ stack) := by
  induction ts generalizing vs slot stack with
  | nil => simp [loadActions, convertAll]
  | cons t ts ih =>
      cases vs with
      | nil => cases hLength
      | cons v vs =>
          have hHere : locals slot = some v := hLocals 0
          have hNext : ∀ i, locals (slot + 1 + i) = vs[i]? := by
            intro i
            rw [Nat.add_assoc, Nat.add_comm 1]
            exact hLocals (i + 1)
          rw [loadActions, List.cons_append, List.cons_append,
            List.append_assoc, run, hHere]
          dsimp only
          rw [run_unbox]
          simp only [convertAll, bind_assoc, pure_bind]
          refine bind_congr fun w => ?_
          rw [ih (w :: stack) (Nat.succ.inj hLength) hNext]
          simp

/-
  Call a method of an object with objects as values of types,
  and give what it gives as an object.
-/
def forward
    (r : Runtime M V)
    (method : MemberRef)
    (params : List Ty)
    (result : Ty)
    (this : V)
    (args : List V) : M (Ending V) := do
  let values ← r.convertAll params args
  let v ← r.call .virtual method (this :: values)
  let object ← r.box result v
  return .value object

end Runtime

/- Code that hands a call on to another method. -/
def forwardActions
    (method : MemberRef)
    (params : List Ty)
    (result : Ty) : List Action :=
  [.load .ref 0] ++ loadActions 1 params ++
    [.invoke .virtual method] ++ boxActions result ++
    [.returnValue .ref]

namespace Runtime

variable [Monad M] [LawfulMonad M] {r : Runtime M V}
variable {method : MemberRef} {params : List Ty}

/-
  The code loads the object and then the arguments, each of
  them converted, and calls the method with just these.
-/
theorem run_forward
    {args : List V}
    (result : Ty)
    (this : V)
    (hCall : method.exchange? .virtual =
      some (params.length + 1, true))
    (hArgs : args.length = params.length) :
    r.run (fun k => (this :: args)[k]?)
        (forwardActions method params result) [] =
      r.forward method params result this args := by
  simp only [forwardActions, forward, List.append_assoc,
    List.cons_append, List.nil_append, run,
    List.getElem?_cons_zero]
  rw [run_loads _ _ hArgs (by simp [Nat.add_comm 1])]
  refine convertAll_congr hArgs fun values hCount => ?_
  have hGiven : method.exchange? .virtual =
      some ((this :: values).length, true) := by
    rw [List.length_cons, hCount]
    exact hCall
  have hStack : values.reverse ++ [this] =
      (this :: values).reverse ++ [] := by simp
  rw [hStack, run_call _ _ _ hGiven]
  refine bind_congr fun v => ?_
  rw [if_pos rfl, run_box]
  rfl

end Runtime

end Stratagem

import Stratagem.Assembly.Draft
import Stratagem.Jvm.Ty.Known

/-
  Writing instructions.

  Each step writes the shortest instruction that does the job
  and keeps track of the stack.  A step that fails keeps what
  it has added to the constant pool.

  Key definitions include:
    * `Emitter`
    * `Emitter.iconst`
    * `Emitter.load`
    * `Emitter.store`
    * `Emitter.invoke`
    * `Emitter.box`
    * `Emitter.unbox`
-/

namespace Stratagem

open Jvm

/- A step of writing a method. -/
abbrev Emitter :=
  ExceptT ClassFileError (StateM MethodDraft)

/- How a method is called. -/
inductive CallKind where
  | virtual
  | special
  | static
  | interface
deriving DecidableEq

/- The instruction for a call. -/
def CallKind.opcode : CallKind → Opcode
  | .virtual => .invokevirtual
  | .special => .invokespecial
  | .static => .invokestatic
  | .interface => .invokeinterface

namespace Emitter

------------------------------------------------------------
-- Basics
------------------------------------------------------------

/- A step on the constant pool. -/
def pooled
    {α : Type}
    (x : Pooling α) : Emitter α := fun m =>
  let pool := m.pool
  let m := { m with pool := {} }
  let (result, pool) := x pool
  (result, { m with pool })

/- The value of a type's property. -/
def property
    {α : Type} :
    Except TypeError α → Emitter α
  | .ok x => return x
  | .error e => throw (.type e)

/- Write an instruction. -/
def write
    (opcode : Opcode)
    (operands : List UInt8) : Emitter Unit :=
  modify (·.write opcode operands)

/- Put a value on the stack. -/
def push
    (v : VType) : Emitter Unit :=
  modify (·.push v)

/- Take a value from the stack. -/
def pop : Emitter VType :=
  modifyGet MethodDraft.pop

------------------------------------------------------------
-- Constants
------------------------------------------------------------

/- Load a constant of one slot. -/
def ldc
    (index : UInt16) : Emitter Unit :=
  if index ≤ 255 then
    write .ldc [index.toUInt8]
  else
    write .ldcW (be16 index)

/- Push the null reference. -/
def aconstNull : Emitter Unit := do
  write .aconstNull []
  push .null

/-
  Push a constant: by an instruction of its own, if its value
  is one that has such an instruction, or else as given.
-/
def shortOr
    {n : Nat}
    {α : Type}
    [DecidableEq α]
    (short : Fin n → Opcode)
    (value : Fin n → α)
    (x : α)
    (v : VType)
    (long : Emitter Unit) : Emitter Unit :=
  match (List.finRange n).find? (value · = x) with
  | some k => do
      write (short k) []
      push v
  | none => long

/- Push a constant of two slots from the pool. -/
def pushWide
    (c : Constant)
    (v : VType) : Emitter Unit := do
  let index ← pooled (Pooling.add c)
  write .ldc2W (be16 index)
  push v

/- Push an `int`. -/
def iconst
    (n : Int32) : Emitter Unit := do
  let v := n.toInt
  if h : -1 ≤ v ∧ v ≤ 5 then
    write (.iconst ⟨(v + 1).toNat, by omega⟩) []
  else if -128 ≤ v ∧ v ≤ 127 then
    write .bipush [n.toInt8.toUInt8]
  else if -32768 ≤ v ∧ v ≤ 32767 then
    write .sipush (be16 n.toInt16.toUInt16)
  else
    ldc (← pooled (Pooling.add (.integer n)))
  push .int

/- Push a `long`. -/
def lconst
    (n : Int64) : Emitter Unit :=
  shortOr .lconst (fun k => .ofNat k) n .long
    (pushWide (.long n) .long)

/- Push a `float`; only the positive zero is short. -/
def fconst
    (x : Binary32) : Emitter Unit :=
  shortOr .fconst (fun k => .ofInt k) x .float do
    ldc (← pooled (Pooling.add (.float x)))
    push .float

/- Push a `double`; only the positive zero is short. -/
def dconst
    (x : Binary64) : Emitter Unit :=
  shortOr .dconst (fun k => .ofInt k) x .double
    (pushWide (.double x) .double)

/- Push a string. -/
def ldcString
    (s : String) : Emitter Unit := do
  ldc (← pooled (Pooling.string s))
  push (.object "java/lang/String")

/- Push a class object. -/
def ldcClass
    (name : String) : Emitter Unit := do
  ldc (← pooled (Pooling.classRef name))
  push (.object "java/lang/Class")

------------------------------------------------------------
-- Locals
------------------------------------------------------------

/- A new local, which holds nothing yet. -/
def newLocal
    (name : String)
    (ty : Ty) : Emitter Local := fun m =>
  if m.hasRoom ty then
    let (l, m) := m.alloc name ty none .top
    (.ok l, m)
  else
    (.error (.localIndexOverflow m.name), m)

/- Write an operation on a slot in its shortest form. -/
def onSlot
    (short : Fin 4 → Opcode)
    (long : Opcode)
    (slot : Nat) : Emitter Unit :=
  if h : slot < 4 then
    write (short ⟨slot, h⟩) []
  else if slot < 256 then
    write long [UInt8.ofNat slot]
  else
    modify (·.writeWide long slot)

/-
  What a local holds: the type known of its slot, or else the
  type that the local was made for.
-/
def heldIn
    (v : LocalVar)
    (m : MethodDraft) : VType :=
  match m.slots.getD v.slot .top with
  | .top => .ofTy v.ty
  | known => known

/- Push the value of a local. -/
def load
    (l : Local) : Emitter Unit := do
  match (← get).locals[l.index]? with
  | none => return ()
  | some v =>
      let held := heldIn v (← get)
      let f := Family.ofTy v.ty
      onSlot (.loadShort f) (.load f) v.slot
      push held

/- Take the top of the stack into a local. -/
def store
    (l : Local) : Emitter Unit := do
  match (← get).locals[l.index]? with
  | none => return ()
  | some v =>
      let f := Family.ofTy v.ty
      discard pop
      onSlot (.storeShort f) (.store f) v.slot
      modify fun m =>
        { m with
          locals := m.locals.setIfInBounds l.index
            { v with start := v.start <|> some m.offset }
          slots := m.slots.setIfInBounds v.slot (.ofTy v.ty) }

/- Push the receiver, if there is one. -/
def loadThis : Emitter Unit := do
  match (← get).this? with
  | some l => load l
  | none => return ()

------------------------------------------------------------
-- Stack
------------------------------------------------------------

/- Drop the top of the stack. -/
def drop : Emitter Unit := do
  let v ← pop
  write (if v.slots = 2 then .pop2 else .pop) []

/- Double the top of the stack. -/
def dup : Emitter Unit := do
  write .dup []
  let v ← pop
  push v
  push v

/- Exchange the top of the stack with the value below. -/
def swap : Emitter Unit := do
  write .swap []
  let a ← pop
  let b ← pop
  push a
  push b

------------------------------------------------------------
-- Objects and Fields
------------------------------------------------------------

/- Push a new object, which its constructor has yet to see. -/
def new
    (name : String) : Emitter Unit := do
  let index ← pooled (Pooling.classRef name)
  let offset := (← get).offset
  write .new (be16 index)
  push (.uninit (offset % 65536))

/-
  Make the top of the stack a value of a class.  Every
  reference is an object, so no cast to that class is written.
-/
def checkcast
    (ty : Ty) : Emitter Unit :=
  match VType.ofTy ty with
  | .object name => do
      if name = "java/lang/Object" then
        return ()
      let index ← pooled (Pooling.classRef name)
      write .checkcast (be16 index)
      discard pop
      push (.object name)
  | _ => throw (.type (.notAnObject ty))

/- Throw the top of the stack. -/
def athrow : Emitter Unit := do
  write .athrow []
  discard pop
  modify MethodDraft.terminate

/- The index of a field. -/
def field
    (owner name : String)
    (ty : Ty) : Emitter UInt16 := do
  let descriptor ← property ty.descriptor
  pooled (Pooling.member .field owner name descriptor)

/- Push the value of a field that belongs to a class. -/
def getstatic
    (owner name : String)
    (ty : Ty) : Emitter Unit := do
  let index ← field owner name ty
  write .getstatic (be16 index)
  push (.ofTy ty)

/- Take the top of the stack into such a field. -/
def putstatic
    (owner name : String)
    (ty : Ty) : Emitter Unit := do
  let index ← field owner name ty
  write .putstatic (be16 index)
  discard pop

------------------------------------------------------------
-- Calls
------------------------------------------------------------

/- The operand of a call that counts slots, as one byte. -/
def countOperands
    (kind : CallKind)
    (params : List Ty) : List UInt8 :=
  match kind with
  | .interface =>
      [UInt8.ofNat (1 + Ty.totalSlots params), 0]
  | _ => []

/- The slots that a call counts: the receiver and arguments. -/
def countedSlots
    (kind : CallKind)
    (params : List Ty) : Nat :=
  match kind with
  | .interface => 1 + Ty.totalSlots params
  | _ => 0

/- Write a call, for which slots may have been added up. -/
def writeCall
    (kind : CallKind)
    (index : UInt16)
    (params : List Ty) : Emitter Unit :=
  modify fun m =>
    (m.write kind.opcode
      (be16 index ++ countOperands kind params)).addUp
        (countedSlots kind params)

/-
  Take the receiver of a call from the stack.  A constructor
  makes its receiver an object, wherever it is held.
-/
def popReceiver
    (kind : CallKind)
    (owner name : String) : Emitter Unit := do
  if kind = .static then
    return ()
  let receiver ← pop
  if kind = .special ∧ name = "<init>" then
    modify fun m =>
      m.replace receiver
        (.object
          (if receiver = .uninitThis then m.className else owner))

/- Call a method. -/
def invoke
    (kind : CallKind)
    (owner name descriptor : String) : Emitter Unit := do
  match parseMethodDescriptor descriptor with
  | .error e => throw (.signature e)
  | .ok (params, result) =>
      let member :=
        if kind = .interface then .interfaceMethod else .method
      let index ←
        pooled (Pooling.member member owner name descriptor)
      writeCall kind index params
      modify (·.popMany params.length)
      popReceiver kind owner name
      if result != .primitive .void then
        push (.ofTy result)

/- Wrap a primitive on top of the stack. -/
def box
    (ty : Ty) : Emitter Unit :=
  match ty.boxed? with
  | none => return ()
  | some wrapper => do
      let owner ← property wrapper.internalName
      let param ← property ty.descriptor
      let result ← property wrapper.descriptor
      invoke .static owner "valueOf" s!"({param}){result}"

/- Unwrap the top of the stack, or cast it to a class. -/
def unbox
    (ty : Ty) : Emitter Unit :=
  match ty.boxed?, ty.unboxMethod? with
  | some wrapper, some method => do
      checkcast wrapper
      let owner ← property wrapper.internalName
      let result ← property ty.descriptor
      invoke .virtual owner method s!"(){result}"
  | _, _ => checkcast ty

end Emitter

end Stratagem

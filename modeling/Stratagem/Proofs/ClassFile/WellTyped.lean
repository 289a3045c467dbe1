import Stratagem.Proofs.Assembly.Finished

/-
  Class files whose methods are typed.

  A method starts in a state known by its flags, its name and
  its descriptor.  Its code is typed if every state that it
  reaches is accepted by the instruction there.

  Key definitions include:
    * `TypeState.entry`
    * `WellTyped`
    * `ClassFile.MethodTyped`
    * `ClassFile.Typed`

  Main declarations:
    * `FinishedMethod.typed`
    * `FinishedMethod.verified`
-/

namespace Stratagem

open Jvm

------------------------------------------------------------
-- Entry
------------------------------------------------------------

/- Values in slots; a wide one takes the next slot too. -/
def Jvm.VType.spread : List VType → List VType
  | [] => []
  | v :: vs =>
      if v.slots = 2 then v :: .top :: spread vs
      else v :: spread vs

/-
  The receiver of a method, if it has one.  The receiver of a
  constructor is not yet an object.
-/
def receiverOf
    (className : String)
    (access : UInt16)
    (name : String) : Option VType :=
  if access &&& staticFlag != 0 then none
  else if name = "<init>" then some .uninitThis
  else some (.object className)

/- The state in which a method starts. -/
def TypeState.entry
    (className : String)
    (access : UInt16)
    (name : String)
    (params : List VType) : TypeState where
  slots k :=
    (VType.spread
      ((receiverOf className access name).toList ++ params)).getD k
        .top
  stack := []

------------------------------------------------------------
-- Typed Code
------------------------------------------------------------

/-
  Every state that code reaches is accepted by the instruction
  there, an instruction is reached in one state only, and all
  instructions are reached.
-/
structure WellTyped
    (frame : MethodFrame)
    (s₀ : TypeState)
    (code : List CodePoint) : Prop where
  accepts : ∀ x s, Reached frame code 0 s₀ x s →
    ∃ q ∈ code, q.offset = x ∧ (q.action.check frame s).isSome
  single : ∀ x s s', Reached frame code 0 s₀ x s →
    Reached frame code 0 s₀ x s' → s = s'
  covers : ∀ q ∈ code, ∃ s, Reached frame code 0 s₀ q.offset s

theorem Flow.wellTyped
    {frame : MethodFrame}
    {limit stop : Nat}
    {s₀ : TypeState}
    {code : List CodePoint}
    (hFlow : Flow frame limit 0 s₀ code stop none) :
    WellTyped frame s₀ code := by
  refine ⟨?_, hFlow.single, hFlow.covers⟩
  intro x s hReached
  rcases hFlow.sound x s hReached with
    ⟨-, hNone⟩ | ⟨q, hIn, hOffset, ⟨s', hCheck, -⟩, -⟩
  · cases hNone
  · exact ⟨q, hIn, hOffset, by rw [hCheck]; rfl⟩

namespace ClassFile

/- The body of a method is there, and its code is typed. -/
def MethodTyped
    (c : ClassFile)
    (m : Member) : Prop :=
  ∃ className superName name descriptor params result body is
      code,
    c.thisName? = some className ∧
    c.superName? = some superName ∧
    c.memberName? m = some name ∧
    c.memberDescriptor? m = some descriptor ∧
    parseMethodDescriptor descriptor = .ok (params, result) ∧
    c.codeOf? m = some (.ok body) ∧
    decodeCode body.code = .ok is ∧
    Linked c.pool is code ∧
    WellTyped { className, superName, result }
      (.entry className m.access name (params.map VType.ofTy)) code

/- The code of all methods is typed. -/
def Typed
    (c : ClassFile) : Prop :=
  ∀ m ∈ c.methods, c.MethodTyped m

end ClassFile

------------------------------------------------------------
-- Finished Methods
------------------------------------------------------------

section Finished

variable {frame : MethodFrame} {s₀ : TypeState}
variable {name descriptor : String} {access : UInt16}
variable {c : ClassFile} {m : Member}

/- A body that was written first is found and read back. -/
theorem ClassFile.codeOf?_cons
    {codeName : UInt16}
    {body : CodeAttribute}
    {rest : List Attribute}
    (hAttributes : m.attributes =
      { name := codeName, info := body.encode } :: rest)
    (hName : c.pool.textAt? codeName = some "Code")
    (hBody : body.Writable) :
    c.codeOf? m = some (.ok body) := by
  unfold ClassFile.codeOf? ClassFile.findAttribute?
  rw [hAttributes, List.find?_cons_of_pos (by simp [hName])]
  rw [Option.map_some, CodeAttribute.decode_encode hBody]

/- The body that a finished method has. -/
theorem FinishedMethod.codeOf?
    (hFinished : FinishedMethod frame s₀ name descriptor access
      c.pool m) :
    ∃ body is points,
      c.codeOf? m = some (.ok body) ∧
      decodeCode body.code = .ok is ∧
      Linked c.pool is points ∧
      (∃ stop, Flow frame body.maxStack.toNat 0 s₀ points stop
        none) ∧
      LocalsWithin body.maxLocals.toNat points := by
  rcases hFinished.code with ⟨codeName, body, rest, is, points,
    hAttributes, hName, hBody, hDecode, hLinked, hFlow, hLocals⟩
  exact ⟨body, is, points, c.codeOf?_cons hAttributes hName hBody,
    hDecode, hLinked, hFlow, hLocals⟩

/- It passes the structural check. -/
theorem FinishedMethod.verified
    (hFinished : FinishedMethod frame s₀ name descriptor access
      c.pool m)
    (hEmpty : s₀.height = 0) :
    c.verifyMethod m = .ok () := by
  rcases hFinished.codeOf? with
    ⟨body, is, points, hBody, hDecode, hLinked, ⟨stop, hFlow⟩,
      hLocals⟩
  unfold ClassFile.verifyMethod
  rw [hBody]
  dsimp only
  rw [CodeAttribute.verify_of_flow hDecode hLinked hEmpty hFlow
    hLocals]
  rfl

/- And its code is typed. -/
theorem FinishedMethod.typed
    {className superName : String}
    {params : List Ty}
    {result : Ty}
    (hFinished : FinishedMethod { className, superName, result }
      (.entry className access name (params.map VType.ofTy)) name
      descriptor access c.pool m)
    (hThis : c.thisName? = some className)
    (hSuper : c.superName? = some superName)
    (hReads : parseMethodDescriptor descriptor =
      .ok (params, result)) :
    c.MethodTyped m := by
  rcases hFinished.codeOf? with
    ⟨body, is, points, hBody, hDecode, hLinked, ⟨stop, hFlow⟩, -⟩
  have hTyped := hFlow.wellTyped
  rw [← hFinished.access] at hTyped
  exact ⟨className, superName, name, descriptor, params, result,
    body, is, points, hThis, hSuper, hFinished.name,
    hFinished.descriptor, hReads, hBody, hDecode, hLinked, hTyped⟩

end Finished

end Stratagem

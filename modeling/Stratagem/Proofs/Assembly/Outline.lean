import Mathlib.Data.List.Forall2
import Stratagem.Proofs.Assembly.Finished
import Stratagem.Proofs.ClassFile.WellTyped

/-
  Outlines of methods.

  The outline of a method is what a class file says of it when
  all names are looked up in the constant pool: what it is
  called, and what its instructions do, one after another.

  Key definitions include:
    * `MethodOutline`
    * `ClassFile.outline?`
    * `Member.Called`
    * `Member.Follows`
    * `Action.made?`
    * `Action.stored?`

  Main declarations:
    * `Member.Follows.grown`
    * `Member.Follows.outline?_eq`
    * `map_outline?`
-/

namespace Stratagem

open Jvm

------------------------------------------------------------
-- Outlines
------------------------------------------------------------

/- What a method is called and what its code does. -/
structure MethodOutline where
  access : UInt16
  name : String
  descriptor : String
  actions : List Action

/- What tells a method from the others of its class. -/
def MethodOutline.key
    (o : MethodOutline) : String × String :=
  (o.name, o.descriptor)

/- The outline of a method whose code handles no exceptions. -/
def ClassFile.outline?
    (c : ClassFile)
    (m : Member) : Option MethodOutline := do
  let name ← c.memberName? m
  let descriptor ← c.memberDescriptor? m
  let body ← (c.codeOf? m).bind Except.toOption
  let is ← (decodeCode body.code).toOption
  let actions ← is.mapM (Instruction.action? c.pool)
  if body.handlers.isEmpty then
    return { access := m.access, name, descriptor, actions }
  else
    none

/- A member has a name and a descriptor. -/
structure Member.Called
    (p : ConstantPool)
    (access : UInt16)
    (name descriptor : String)
    (member : Member) : Prop where
  access : member.access = access
  name : p.textAt? member.name = some name
  descriptor : p.textAt? member.descriptor = some descriptor

namespace Action

/- The class of the object that an action makes. -/
def made? : Action → Option String
  | .new _ name => some name
  | _ => none

/- The field that an action stores to. -/
def stored? : Action → Option MemberRef
  | .putstatic field => some field
  | _ => none

end Action

------------------------------------------------------------
-- Written Methods
------------------------------------------------------------

/- A member was made of a draft whose code has an outline. -/
def Member.Follows
    (p : ConstantPool)
    (member : Member)
    (o : MethodOutline) : Prop :=
  ∃ m points is,
    Spelled m points ∧
    m.resolve = .ok is ∧
    m.pool.Grown p ∧
    member.Holds m (is.flatMap Instruction.encode) p ∧
    o = { access := m.access, name := m.name
          descriptor := m.descriptor
          actions := points.map CodePoint.action }

theorem mapM_of_map_eq
    {α β : Type}
    {f : α → Option β}
    {xs : List α}
    {ys : List β}
    (hSame : xs.map f = ys.map some) :
    xs.mapM f = some ys := by
  induction xs generalizing ys with
  | nil =>
      cases ys with
      | nil => rfl
      | cons y ys => cases hSame
  | cons x xs ih =>
      cases ys with
      | nil => cases hSame
      | cons y ys =>
          rcases List.cons.inj hSame with ⟨hFirst, hRest⟩
          rw [List.mapM_cons, hFirst, ih hRest]
          rfl

/- Points are linked to instructions with their actions. -/
theorem Linked.map_action?
    {p : ConstantPool}
    {is : List Instruction}
    {points : List CodePoint}
    (hLinked : Linked p is points) :
    is.map (Instruction.action? p) =
      (points.map CodePoint.action).map some := by
  have hAction : ∀ i : Instruction,
      (i.point? p).map CodePoint.action = i.action? p := by
    intro i
    simp [Instruction.point?, Function.comp_def]
  have hSame := congrArg
    (List.map (Option.map CodePoint.action)) hLinked
  simp only [List.map_map, Function.comp_def, hAction,
    Option.map_some] at hSame
  rw [hSame, List.map_map]
  rfl

namespace Member.Follows

variable {p q : ConstantPool} {member : Member}
variable {o : MethodOutline}

/- The pool may grow. -/
theorem grown
    (hFollows : member.Follows p o)
    (hGrown : p.Grown q) :
    member.Follows q o := by
  rcases hFollows with
    ⟨m, points, is, hSpelled, hResolve, hPool, hHolds, hOutline⟩
  exact ⟨m, points, is, hSpelled, hResolve, hPool.trans hGrown,
    hHolds.within hGrown.within, hOutline⟩

theorem name
    (hFollows : member.Follows p o) :
    p.textAt? member.name = some o.name := by
  rcases hFollows with ⟨m, points, is, -, -, -, hHolds, rfl⟩
  exact hHolds.name

/- The outline is what the class file says. -/
theorem outline?_eq
    (c : ClassFile)
    (hFollows : member.Follows c.pool o) :
    c.outline? member = some o := by
  rcases hFollows with
    ⟨m, points, is, ⟨js, hSame, hLaid, -, hLinked⟩, hResolve,
      hGrown, hHolds, rfl⟩
  rw [hResolve] at hSame
  cases hSame
  rcases hHolds.body with ⟨codeName, body, rest, hAttributes, hName,
    hWritable, hCode, hHandlers, -⟩
  have hActions := mapM_of_map_eq
    (hLinked.within hGrown.within).map_action?
  have hDecode : decodeCode body.code = .ok is := by
    rw [hCode]
    exact hLaid.decodeCode_encode
  have hBody := c.codeOf?_cons hAttributes hName hWritable
  have hText : c.memberName? member = some m.name := hHolds.name
  have hDescriptor : c.memberDescriptor? member =
      some m.descriptor := hHolds.descriptor
  simp [ClassFile.outline?, hText, hDescriptor, hBody,
    Except.toOption, hDecode, hActions, hHandlers, hHolds.access]

end Member.Follows

/- A class file says of its methods what they follow. -/
theorem map_outline?
    (c : ClassFile)
    {members : List Member}
    {os : List MethodOutline}
    (hFollow : List.Forall₂ (Member.Follows c.pool) members os) :
    members.map c.outline? = os.map some := by
  induction hFollow with
  | nil => rfl
  | cons hOne _ ih =>
      rw [List.map_cons, List.map_cons, hOne.outline?_eq c, ih]

end Stratagem

import Stratagem.Program.Decl
import Stratagem.Program.Normalize
import Stratagem.Text.Integer

/-
  Programs written as terms.

  Every expression and every declaration of a strategy has an
  annotation `OfType` with its type.  A declaration also has
  an annotation `OfDecl` with its pointer, and what refers to
  a declaration may have an annotation `OfRef`.

  Key definitions include:
    * `ValueType.ofTerm`
    * `Exp.ofTerm`
    * `Decl.ofTerm`
    * `StrategyDef.ofTerm`
    * `Module.ofTerm`
    * `Project.ofTerm`
-/

namespace Stratagem

/- A result whose error is about a term. -/
def ofTermError
    {α : Type} :
    Except TermError α → Except CompileError α
  | .ok x => .ok x
  | .error e => .error (.term e)

/- Text where a term should have it. -/
def Term.text
    (t : Term) : Except CompileError String :=
  ofTermError t.asStr

/- The elements of a term that should be a list. -/
def Term.elements
    (t : Term) : Except CompileError (List Term) :=
  ofTermError t.asList

/- An application where a term should be one. -/
def Term.parts
    (t : Term) : Except CompileError (String × List Term) :=
  ofTermError t.asAppl

/- A term that has no place where it stands. -/
def Term.unsupported
    {α : Type}
    (t : Term)
    (role : String) : Except CompileError α :=
  .error (.unsupported (.form role t))

------------------------------------------------------------
-- Pointers
------------------------------------------------------------

/- The pointer that a term index spells. -/
def Pointer.ofIndex
    (t : Term) : Except CompileError Pointer := do
  let resource ← ofTermError (t.get 0)
  let resource ← resource.text
  let position ← ofTermError (t.get 1)
  let position ← ofTermError position.asInt
  let n := position.toInt
  if 0 ≤ n ∧ n < UInt32.size then
    return { resource, index := n.toNat }
  else
    throw (.unsupported (.termIndex position))

/-
  The pointer in an annotation, if a term has that one.  The
  index is the annotated reference or an annotation of it.
-/
def Pointer.ofNote
    (t : Term)
    (note : String) :
    Except CompileError (Option Pointer) :=
  match t.annotation? note (some 1) with
  | none => .ok none
  | some a => do
      let reference ← ofTermError (a.get 0)
      if reference.isAppl "TermIndex" 2 then
        return some (← Pointer.ofIndex reference)
      match reference.annotation? "TermIndex" (some 2) with
      | some index => return some (← Pointer.ofIndex index)
      | none => throw (.unsupported (.missingIndex note))

/- The pointer of a declaration. -/
def Pointer.ofDecl
    (t : Term) : Except CompileError Pointer := do
  match ← Pointer.ofNote t "OfDecl" with
  | some p => return p
  | none => throw (.unsupported (.missingNote t "OfDecl"))

------------------------------------------------------------
-- Types
------------------------------------------------------------

/- The type without parts that a constructor spells. -/
def BaseType.ofConstructor? : String → Option BaseType
  | "BOOL" => some .bool
  | "CHAR" => some .char
  | "BYTE" => some .byte
  | "SHORT" => some .short
  | "INT" => some .int
  | "LONG" => some .long
  | "UBYTE" => some .ubyte
  | "USHORT" => some .ushort
  | "UINT" => some .uint
  | "ULONG" => some .ulong
  | "FLOAT" => some .float
  | "DOUBLE" => some .double
  | "ANY" => some .any
  | "NOTHING" => some .nothing
  | "UNIT" => some .unit
  | "STRING" => some .string
  | _ => none

mutual

/- The type that a term spells. -/
def ValueType.ofTerm
    (t : Term) : Except CompileError ValueType :=
  match t with
  | .mk (.appl c []) a =>
      match BaseType.ofConstructor? c with
      | some b => .ok (.base b)
      | none => (Term.mk (.appl c []) a).unsupported "type"
  | .mk (.appl "STRATEGY" [params, input, output]) _ => do
      let params ← ValueType.ofListTerm params
      let input ← ValueType.ofTerm input
      let output ← ValueType.ofTerm output
      return .strategy params input output
  | .mk (.appl "CLASS" [name]) a => do
      let text ← name.text
      let pointer ←
        Pointer.ofNote (.mk (.appl "CLASS" [name]) a) "OfRef"
      return .classRef text pointer
  | .mk (.appl "LIST" [element]) _ => do
      return .list (← ValueType.ofTerm element)
  | .mk (.appl "TUPLE" [components]) _ => do
      return .tuple (← ValueType.ofListTerm components)
  | .mk (.appl c args) a =>
      (Term.mk (.appl c args) a).unsupported "type"
  | .mk p a =>
      .error (.term
        (.unexpectedKind "constructor application" (.mk p a)))

/- The types that a list spells. -/
def ValueType.ofListTerm
    (t : Term) : Except CompileError (List ValueType) :=
  match t with
  | .mk (.list ts) _ => ValueType.ofTerms ts
  | .mk p a =>
      .error (.term (.unexpectedKind "list term" (.mk p a)))

/- The types that terms spell. -/
def ValueType.ofTerms :
    List Term → Except CompileError (List ValueType)
  | [] => .ok []
  | t :: ts => do
      let ty ← ValueType.ofTerm t
      let tys ← ValueType.ofTerms ts
      return ty :: tys

end

/- The type in the annotation of a term. -/
def Term.valueType
    (t : Term) : Except CompileError ValueType :=
  match t.annotation? "OfType" (some 1) with
  | none =>
      .error (.unsupported (.missingNote t "OfType"))
  | some a => do
      let ty ← ofTermError (a.get 0)
      ValueType.ofTerm ty

------------------------------------------------------------
-- Expressions
------------------------------------------------------------

/- An integer literal, which is a number or the text of one. -/
def Term.literal
    (t : Term) : Except CompileError Int32 := do
  let value ←
    match t.payload with
    | .int value => pure value
    | .str text =>
        match Text.parseInteger? text with
        | some value => pure value
        | none => throw (.unsupported (.literalText text))
    | _ => t.unsupported "integer literal"
  let n := value.toInt
  if Int32.minValue.toInt ≤ n ∧ n ≤ Int32.maxValue.toInt then
    return Int32.ofInt n
  else
    throw (.unsupported (.literalRange value))

mutual

/-
  The expression that a term spells.  The type of a binding is
  looked at behind what is bound, and the type of any other
  expression before its parts.
-/
def Exp.ofTerm
    (t : Term) : Except CompileError Exp :=
  match t with
  | .mk (.appl "Let" [name, bound, body]) a => do
      let name' ← name.text
      let bound' ← Exp.ofTerm bound
      let ty ←
        (Term.mk (.appl "Let" [name, bound, body]) a).valueType
      let body' ← Exp.ofTerm body
      return .letIn name' bound' body' ty
  | .mk (.appl c args) a => do
      let ty ← (Term.mk (.appl c args) a).valueType
      match c, args with
      | "Apply", [function, args] =>
          let function ← Exp.ofTerm function
          let args ← Exp.ofListTerm args
          return .apply function args ty
      | "Eval", [strategy, input] =>
          let strategy ← Exp.ofTerm strategy
          let input ← Exp.ofTerm input
          return .eval strategy input ty
      | "Var", [name] =>
          let text ← name.text
          let pointer ←
            Pointer.ofNote
              (.mk (.appl "Var" [name]) a) "OfRef"
          return .var text pointer ty
      | "Int", [value] => return .int (← value.literal) ty
      | "String", [value] => return .str (← value.text) ty
      | "Object", [] => return .object ty
      | "AnyInst", [] => return .object ty
      | "Seq", [first, second] =>
          let first ← Exp.ofTerm first
          let second ← Exp.ofTerm second
          return .seq first second ty
      | _, _ =>
          (Term.mk (.appl c args) a).unsupported "expression"
  | .mk p a =>
      .error (.term
        (.unexpectedKind "constructor application" (.mk p a)))

/- The expressions that a list spells. -/
def Exp.ofListTerm
    (t : Term) : Except CompileError (List Exp) :=
  match t with
  | .mk (.list ts) _ => Exp.ofTerms ts
  | .mk p a =>
      .error (.term (.unexpectedKind "list term" (.mk p a)))

/- The expressions that terms spell. -/
def Exp.ofTerms :
    List Term → Except CompileError (List Exp)
  | [] => .ok []
  | t :: ts => do
      let e ← Exp.ofTerm t
      let es ← Exp.ofTerms ts
      return e :: es

end

------------------------------------------------------------
-- Declarations
------------------------------------------------------------

/- A word before a declaration. -/
def modifierOfTerm
    (t : Term) : Except CompileError String :=
  match t.payload with
  | .appl c _ => .ok c
  | .str s => .ok s
  | _ => t.unsupported "modifier"

/- Modifiers and name of a declaration; more may follow. -/
def declParts
    (t : Term)
    (constructor : String) :
    Except CompileError (Term × Term) := do
  match ← t.parts with
  | (c, modifiers :: name :: _) =>
      if c = constructor then return (modifiers, name)
      else throw (.unsupported (.unexpected t constructor))
  | _ => throw (.unsupported (.unexpected t constructor))

/- The modifiers of a declaration. -/
def modifiersOfTerm
    (t : Term) : Except CompileError (List String) := do
  (← t.elements).mapM modifierOfTerm

/- The declaration of a strategy. -/
def StrategyDecl.ofTerm
    (package : PackageName)
    (t : Term) : Except CompileError StrategyDecl := do
  let (modifiers, name) ← declParts t "StrategyDecl"
  let ty ← t.valueType
  match ty.strategy? with
  | none => throw (.mismatch (.declarationType ty))
  | some ty =>
      let text ← name.text
      let name ← QName.ofText package text
      let modifiers ← modifiersOfTerm modifiers
      let pointer ← Pointer.ofDecl t
      return { name, ty, modifiers, pointer }

/- The declaration of a class. -/
def ClassDecl.ofTerm
    (package : PackageName)
    (t : Term) : Except CompileError ClassDecl := do
  let (modifiers, name) ← declParts t "ClassDecl"
  let text ← name.text
  let name ← QName.ofText package text
  let modifiers ← modifiersOfTerm modifiers
  let pointer ← Pointer.ofDecl t
  return { name, modifiers, pointer }

------------------------------------------------------------
-- Definitions
------------------------------------------------------------

/- A parameter of a definition. -/
def ParamDef.ofTerm
    (t : Term) : Except CompileError ParamDef := do
  match ← t.parts with
  | ("ParamDef", [name]) => return ⟨← name.text, none⟩
  | ("ParamDefNoType", [name]) => return ⟨← name.text, none⟩
  | ("ParamDef", [name, ty]) =>
      let name ← name.text
      let ty ← ValueType.ofTerm ty
      return ⟨name, some ty⟩
  | _ => t.unsupported "parameter"

/- A definition.  Its body is brought into normal form. -/
def StrategyDef.ofTerm
    (package : PackageName)
    (t : Term) : Normalizing StrategyDef := do
  match ← liftExcept t.parts with
  | (_, [name, params, input, body]) =>
      let params ← liftExcept params.elements
      let params ← liftExcept (params.mapM ParamDef.ofTerm)
      let body ← liftExcept (Exp.ofTerm body)
      let body ← body.normalize
      liftExcept do
        let text ← name.text
        let name ← QName.ofText package text
        let input ← input.text
        let pointer ← Pointer.ofNote t "OfRef"
        return { name, params, input, body, pointer }
  | _ => liftExcept (t.unsupported "strategy definition")

------------------------------------------------------------
-- Modules and Projects
------------------------------------------------------------

/- Something that a module holds. -/
inductive Module.Item where
  | decl (d : Decl)
  | strategy (d : StrategyDef)

namespace Module

/- The item that a term spells. -/
def Item.ofTerm
    (package : PackageName)
    (t : Term) : Normalizing Item := do
  match ← liftExcept t.parts with
  | ("StrategyDecl", _) =>
      let d ← liftExcept (StrategyDecl.ofTerm package t)
      return .decl (.strategy d)
  | ("ClassDecl", _) =>
      let d ← liftExcept (ClassDecl.ofTerm package t)
      return .decl (.classType d)
  | ("StrategyDef", _) =>
      return .strategy (← StrategyDef.ofTerm package t)
  | ("StrategyDefWInput", _) =>
      return .strategy (← StrategyDef.ofTerm package t)
  | _ => liftExcept (t.unsupported "module item")

/- The declaration that an item is. -/
def Item.decl? : Item → Option Decl
  | .decl d => some d
  | .strategy _ => none

/- The definition that an item is. -/
def Item.strategy? : Item → Option StrategyDef
  | .decl _ => none
  | .strategy d => some d

/- The module that a term spells. -/
def ofTerm
    (t : Term) : Normalizing Module := do
  match ← liftExcept t.parts with
  | ("Module", [name, items]) =>
      let text ← liftExcept name.text
      let package ← liftExcept (PackageName.ofText text)
      let items ← liftExcept items.elements
      let items ← items.mapM (Item.ofTerm package)
      return {
        name := package
        decls := items.filterMap Item.decl?
        defs := items.filterMap Item.strategy? }
  | _ => liftExcept (t.unsupported "module")

end Module

/- The project that a term spells: a program or one module. -/
def Project.ofTerm
    (t : Term) : Normalizing Project := do
  match ← liftExcept t.parts with
  | ("Program", [modules]) =>
      let modules ← liftExcept modules.elements
      return { modules := ← modules.mapM Module.ofTerm }
  | ("Module", [_, _]) =>
      return { modules := [← Module.ofTerm t] }
  | _ => liftExcept (t.unsupported "program")

/- The project that a term spells, with names from the first. -/
def Term.project
    (t : Term) : Except CompileError Project :=
  ((Project.ofTerm t).run 0).1

end Stratagem

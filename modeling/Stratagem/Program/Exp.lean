import Stratagem.Program.ValueType
import Stratagem.Text.Quoted

/-
  Expressions with their types.

  Key definitions include:
    * `Exp`
    * `Exp.ty`
    * `Exp.isImmediate`
    * `Exp.isCompound`
    * `Exp.isNormal`
    * `Exp.display`
-/

namespace Stratagem

/- An expression; every one carries its type. -/
inductive Exp where
  | letIn (name : String) (bound body : Exp) (ty : ValueType)
  | apply (function : Exp) (args : List Exp) (ty : ValueType)
  | eval (strategy input : Exp) (ty : ValueType)
  | var (name : String) (pointer : Option Pointer)
      (ty : ValueType)
  | int (value : Int32) (ty : ValueType)
  | str (value : String) (ty : ValueType)
  | object (ty : ValueType)
  | seq (first second : Exp) (ty : ValueType)

namespace Exp

/- The type of an expression. -/
def ty : Exp → ValueType
  | .letIn _ _ _ ty => ty
  | .apply _ _ ty => ty
  | .eval _ _ ty => ty
  | .var _ _ ty => ty
  | .int _ ty => ty
  | .str _ ty => ty
  | .object ty => ty
  | .seq _ _ ty => ty

/- A binding has the type of what it is for. -/
def letOf
    (name : String)
    (bound body : Exp) : Exp :=
  .letIn name bound body body.ty

/- What an expression is called. -/
def kindName : Exp → String
  | .letIn _ _ _ _ => "let"
  | .apply _ _ _ => "apply"
  | .eval _ _ _ => "eval"
  | .var _ _ _ => "var"
  | .int _ _ => "int"
  | .str _ _ => "string"
  | .object _ => "object"
  | .seq _ _ _ => "seq"

------------------------------------------------------------
-- Normal Form
------------------------------------------------------------

/- Variables and constants. -/
def isImmediate : Exp → Bool
  | .var _ _ _ => true
  | .int _ _ => true
  | .str _ _ => true
  | .object _ => true
  | _ => false

/- One computation whose operands are immediate. -/
def isCompound : Exp → Bool
  | .apply function args _ =>
      function.isImmediate && args.all isImmediate
  | .eval strategy input _ =>
      strategy.isImmediate && input.isImmediate
  | .seq first second _ =>
      first.isImmediate && second.isImmediate
  | .letIn _ _ _ _ => false
  | e => e.isImmediate

/- Bindings of compounds in front of a compound. -/
def isNormal : Exp → Bool
  | .letIn _ bound body _ => bound.isCompound && body.isNormal
  | e => e.isCompound

end Exp

------------------------------------------------------------
-- Text
------------------------------------------------------------

mutual

/- An expression as text; a binding ends its line. -/
def Exp.display : Exp → String
  | .letIn name bound body _ =>
      s!"let {name}: " ++ bound.ty.display ++ " = " ++
        bound.display ++ ";\n" ++ body.display
  | .apply function args _ =>
      function.display ++ "(" ++ displayExps args ++ ")"
  | .eval strategy input _ =>
      "eval(" ++ strategy.display ++ ", " ++ input.display ++ ")"
  | .var name _ _ => name
  | .int value _ => toString value.toInt
  | .str value _ => Text.quoted value
  | .object _ => "new Any"
  | .seq first second _ =>
      "(" ++ first.display ++ "; " ++ second.display ++ ")"

/- Expressions parted by commas. -/
def displayExps : List Exp → String
  | [] => ""
  | [e] => e.display
  | e :: rest => e.display ++ ", " ++ displayExps rest

end

end Stratagem

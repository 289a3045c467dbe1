/-
  Types of values.

  A strategy takes parameters and turns its input into its
  output.

  Key definitions include:
    * `Pointer`
    * `ValueType`
    * `StrategyType`
    * `StrategyType.drop?`
    * `ValueType.display`
-/

namespace Stratagem

/- Where something is declared. -/
structure Pointer where
  resource : String
  index : Nat
deriving DecidableEq

/- The pointer as text. -/
def Pointer.display
    (p : Pointer) : String :=
  s!"{p.resource}#{p.index}"

------------------------------------------------------------
-- Types
------------------------------------------------------------

/- Types without parts; `error` stands for a missing one. -/
inductive BaseType where
  | bool
  | char
  | byte
  | short
  | int
  | long
  | ubyte
  | ushort
  | uint
  | ulong
  | float
  | double
  | any
  | nothing
  | unit
  | string
  | error
deriving DecidableEq

/- All types without parts. -/
def BaseType.all : List BaseType :=
  [.bool, .char, .byte, .short, .int, .long, .ubyte, .ushort,
    .uint, .ulong, .float, .double, .any, .nothing, .unit,
    .string, .error]

/- A type of values. -/
inductive ValueType where
  | base (b : BaseType)
  | strategy (params : List ValueType) (input output : ValueType)
  | tuple (components : List ValueType)
  | list (element : ValueType)
  | classRef (name : String) (pointer : Option Pointer)

/- What a strategy takes and gives. -/
structure StrategyType where
  params : List ValueType
  input : ValueType
  output : ValueType

namespace StrategyType

/- The number of parameters. -/
def arity
    (s : StrategyType) : Nat :=
  s.params.length

/- A strategy as a value. -/
def toValueType
    (s : StrategyType) : ValueType :=
  .strategy s.params s.input s.output

/- What is left once the first parameters are supplied. -/
def drop?
    (s : StrategyType)
    (count : Nat) : Option StrategyType :=
  if count ≤ s.arity then
    some { s with params := s.params.drop count }
  else
    none

end StrategyType

namespace ValueType

/- The strategy that values of a type are. -/
def strategy? : ValueType → Option StrategyType
  | .strategy params input output =>
      some { params, input, output }
  | _ => none

/- The number of parameters; only strategies have any. -/
def arity
    (t : ValueType) : Nat :=
  (t.strategy?.map StrategyType.arity).getD 0

end ValueType

------------------------------------------------------------
-- Text
------------------------------------------------------------

/- The name of a type without parts. -/
def BaseType.display : BaseType → String
  | .bool => "Bool"
  | .char => "Char"
  | .byte => "Byte"
  | .short => "Short"
  | .int => "Int"
  | .long => "Long"
  | .ubyte => "UByte"
  | .ushort => "UShort"
  | .uint => "UInt"
  | .ulong => "ULong"
  | .float => "Float"
  | .double => "Double"
  | .any => "Any"
  | .nothing => "Nothing"
  | .unit => "Unit"
  | .string => "String"
  | .error => "<error>"

mutual

/- A type as text. -/
def ValueType.display : ValueType → String
  | .base b => b.display
  | .strategy params input output =>
      (if params.isEmpty then ""
      else "(" ++ displayTypes params ++ ") ") ++
        input.display ++ " -> " ++ output.display
  | .tuple components => "(" ++ displayTypes components ++ ")"
  | .list element => "List<" ++ element.display ++ ">"
  | .classRef name _ => name

/- Types parted by commas. -/
def displayTypes : List ValueType → String
  | [] => ""
  | [t] => t.display
  | t :: rest => t.display ++ ", " ++ displayTypes rest

end

/- A strategy as text. -/
def StrategyType.display
    (s : StrategyType) : String :=
  s.toValueType.display

end Stratagem

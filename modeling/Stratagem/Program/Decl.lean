import Stratagem.Program.Exp
import Stratagem.Program.Name

/-
  Declarations, definitions and what holds them.

  Key definitions include:
    * `Decl`
    * `StrategyDef`
    * `Module`
    * `Project`
-/

namespace Stratagem

------------------------------------------------------------
-- Declarations
------------------------------------------------------------

/- The type of a named strategy. -/
structure StrategyDecl where
  name : QName
  ty : StrategyType
  modifiers : List String
  pointer : Pointer

/- A named class. -/
structure ClassDecl where
  name : QName
  modifiers : List String
  pointer : Pointer

/- A declaration. -/
inductive Decl where
  | strategy (d : StrategyDecl)
  | classType (d : ClassDecl)

namespace Decl

/- The name that is declared. -/
def name : Decl → QName
  | .strategy d => d.name
  | .classType d => d.name

/- Where the declaration is. -/
def pointer : Decl → Pointer
  | .strategy d => d.pointer
  | .classType d => d.pointer

/- The words that stand before the declaration. -/
def modifiers : Decl → List String
  | .strategy d => d.modifiers
  | .classType d => d.modifiers

/- The strategy that is declared. -/
def strategy? : Decl → Option StrategyDecl
  | .strategy d => some d
  | .classType _ => none

/- The class that is declared. -/
def class? : Decl → Option ClassDecl
  | .strategy _ => none
  | .classType d => some d

/- The declaration as text. -/
def display : Decl → String
  | .strategy d => d.name.display ++ ": " ++ d.ty.display
  | .classType d => "class " ++ d.name.display

end Decl

------------------------------------------------------------
-- Definitions
------------------------------------------------------------

/- A parameter, with its type if it is given. -/
structure ParamDef where
  name : String
  ty : Option ValueType

/-
  The body of a strategy, and where the strategy is declared
  if the definition says so.
-/
structure StrategyDef where
  name : QName
  params : List ParamDef
  input : String
  body : Exp
  pointer : Option Pointer

/- The names of the parameters. -/
def StrategyDef.paramNames
    (d : StrategyDef) : List String :=
  d.params.map ParamDef.name

/- What a package holds. -/
structure Module where
  name : PackageName
  decls : List Decl
  defs : List StrategyDef

/- Modules that are compiled together. -/
structure Project where
  modules : List Module

namespace Project

/- All declarations in order. -/
def decls
    (p : Project) : List Decl :=
  p.modules.flatMap Module.decls

/- All definitions in order, each with its package. -/
def defs
    (p : Project) : List (PackageName × StrategyDef) :=
  p.modules.flatMap fun m => m.defs.map fun d => (m.name, d)

end Project

end Stratagem

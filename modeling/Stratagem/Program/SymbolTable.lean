import Stratagem.Program.Decl
import Stratagem.Program.Error

/-
  Declarations by pointer and by name.

  Key definitions include:
    * `SymbolTable`
    * `SymbolTable.insert`
    * `SymbolTable.get?`
    * `SymbolTable.named?`
    * `SymbolTable.classNamed?`
    * `SymbolTable.ofDecls`
-/

namespace Stratagem

/- Declarations in the order in which they were entered. -/
structure SymbolTable where
  decls : List Decl := []

namespace SymbolTable

/- The declaration at a pointer. -/
def get?
    (t : SymbolTable)
    (p : Pointer) : Option Decl :=
  t.decls.find? fun d => d.pointer = p

/- The declaration of a name. -/
def named?
    (t : SymbolTable)
    (q : QName) : Option Decl :=
  t.decls.find? fun d => d.name = q

/-
  Enter a declaration.  Neither its pointer nor its name may
  be there already; of the two, the pointer is looked at
  first.
-/
def insert
    (t : SymbolTable)
    (d : Decl) : Except CompileError SymbolTable :=
  if (t.get? d.pointer).isSome then
    .error (.duplicate d.pointer.display)
  else if (t.named? d.name).isSome then
    .error (.duplicate d.name.display)
  else
    .ok { decls := t.decls ++ [d] }

/- The table of all declarations. -/
def ofDecls
    (ds : List Decl) : Except CompileError SymbolTable :=
  ds.foldlM insert {}

/- The strategy declared at a pointer. -/
def strategy?
    (t : SymbolTable)
    (p : Pointer) : Option StrategyDecl :=
  (t.get? p).bind Decl.strategy?

/- The class declared at a pointer. -/
def class?
    (t : SymbolTable)
    (p : Pointer) : Option ClassDecl :=
  (t.get? p).bind Decl.class?

/-
  The class with a simple name: the one in a package, or else
  the only one there is.
-/
def classNamed?
    (t : SymbolTable)
    (package : PackageName)
    (simple : String) : Option ClassDecl :=
  let candidates :=
    (t.decls.filterMap Decl.class?).filter
      (·.name.simple = simple)
  match candidates.find? (·.name.package = package), candidates with
  | some d, _ => some d
  | none, [d] => some d
  | none, _ => none

end SymbolTable

end Stratagem

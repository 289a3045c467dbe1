import Std.Data.HashMap
import Stratagem.Program.SymbolTable

/-
  Declarations in three containers.

  Declarations are held by pointer, names lead to pointers,
  and the pointers stand in the order in which they were
  entered.  The containers are updated one behind the other,
  and a failure would undo none of it.

  Key definitions include:
    * `SymbolIndex`
    * `SymbolIndex.insert`
    * `SymbolIndex.get?`
    * `SymbolIndex.named?`
    * `SymbolIndex.decls`
    * `SymbolIndex.classNamed?`
    * `SymbolIndex.enterAll`
    * `SymbolTable.enterAll`
-/

namespace Stratagem

deriving instance Hashable for Pointer

instance : Hashable QName where
  hash q := mixHash (hash q.package.text) (hash q.simple)

------------------------------------------------------------
-- Containers
------------------------------------------------------------

/-
  Declarations by pointer, pointers by name, and pointers in
  the order of entering.
-/
structure SymbolIndex where
  byPointer : Std.HashMap Pointer Decl := {}
  byName : Std.HashMap QName Pointer := {}
  order : List Pointer := []

namespace SymbolIndex

/- The declaration at a pointer. -/
def get?
    (i : SymbolIndex)
    (p : Pointer) : Option Decl :=
  i.byPointer[p]?

/- The declaration that a name leads to. -/
def named?
    (i : SymbolIndex)
    (q : QName) : Option Decl :=
  i.byName[q]?.bind i.get?

/- The declarations in the order of entering. -/
def decls
    (i : SymbolIndex) : List Decl :=
  i.order.filterMap i.get?

/- How many declarations there are. -/
def length
    (i : SymbolIndex) : Nat :=
  i.byPointer.size

/- The class with a simple name, by preference in a package. -/
def classNamed?
    (i : SymbolIndex)
    (package : PackageName)
    (simple : String) : Option ClassDecl :=
  SymbolTable.classNamed? { decls := i.decls } package simple

------------------------------------------------------------
-- Entering
------------------------------------------------------------

/-
  A step on the containers.  What was changed before a failure
  stays.
-/
abbrev Entering :=
  ExceptT CompileError (StateM SymbolIndex)

/- Enter a declaration whose pointer and whose name are new. -/
def insert
    (d : Decl) : Entering Unit := do
  let i ← get
  if i.byPointer.contains d.pointer then
    throw (.duplicate d.pointer.display)
  else if i.byName.contains d.name then
    throw (.duplicate d.name.display)
  else
    modify fun i =>
      { i with byName := i.byName.insert d.name d.pointer }
    modify fun i => { i with order := i.order ++ [d.pointer] }
    modify fun i =>
      { i with byPointer := i.byPointer.insert d.pointer d }

/- The containers after one more declaration, or its refusal. -/
def enter
    (i : SymbolIndex)
    (d : Decl) : SymbolIndex :=
  (insert d i).2

/- The containers after declarations, some of them refused. -/
def enterAll
    (ds : List Decl) : SymbolIndex :=
  ds.foldl enter {}

end SymbolIndex

namespace SymbolTable

/- The table after one more declaration, or its refusal. -/
def enter
    (t : SymbolTable)
    (d : Decl) : SymbolTable :=
  (t.insert d).toOption.getD t

/- The table of declarations, some of them refused. -/
def enterAll
    (ds : List Decl) : SymbolTable :=
  ds.foldl enter {}

end SymbolTable

end Stratagem

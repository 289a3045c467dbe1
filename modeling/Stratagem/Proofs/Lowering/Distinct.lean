import Stratagem.Proofs.ClassFile.Paths
import Stratagem.Proofs.Lowering.Order
import Stratagem.Proofs.Program.Declarations

/-
  Which classes of a project have one name.

  A class is named for the declaration of its definition, and
  the declarations of a table have different names.  But a
  declaration may have several definitions, and then their
  classes go by one name and into one file.

  Key definitions include:
    * `MadeFor`
    * `DefinedOnce`

  Main declarations:
    * `SymbolTable.eq_of_name_eq`
    * `compileDefs_linked`
    * `exists_holds_storeAll`
    * `Project.classes_distinct_iff`
-/

namespace Stratagem

open Jvm

------------------------------------------------------------
-- Declarations
------------------------------------------------------------

namespace SymbolTable

/- A table has one declaration for a name. -/
theorem eq_of_name_eq
    {ds : List Decl}
    {t : SymbolTable}
    {d e : StrategyDecl}
    (hTable : ofDecls ds = .ok t)
    (hd : .strategy d ∈ t.decls)
    (he : .strategy e ∈ t.decls)
    (hName : d.name = e.name) :
    d = e := by
  rcases ofDecls_eq_ok_iff.mp hTable with ⟨rfl, hDistinct⟩
  exact Decl.strategy.inj
    (List.inj_on_of_nodup_map hDistinct.names hd he hName)

end SymbolTable

------------------------------------------------------------
-- Definitions
------------------------------------------------------------

/- A class goes by the name that a definition is for. -/
def MadeFor
    (symbols : SymbolTable)
    (d : PackageName × StrategyDef)
    (c : CompiledClass) : Prop :=
  ∃ decl, symbols.declarationOf d.2 = .ok decl ∧ c.IsFor decl.name

theorem madeFor_of_compileDef
    {config : Config}
    {symbols : SymbolTable}
    {package : PackageName}
    {d : StrategyDef}
    {c : CompiledClass}
    (hMade : compileDef config symbols package d = .ok c) :
    MadeFor symbols (package, d) c := by
  rcases ok_bind.mp hMade with ⟨decl, hDecl, hRun⟩
  refine ⟨decl, hDecl, ?_⟩
  rcases ok_bind.mp hRun with ⟨made, hGenerated, hChecked⟩
  have hSame : made = c := by
    split at hChecked
    case isTrue =>
        split at hChecked
        case h_1 => cases hChecked
        case h_2 =>
            cases hChecked
            rfl
    case isFalse =>
        cases hChecked
        rfl
  subst hSame
  simp only [Context.generate, ok_bind] at hGenerated
  rcases hGenerated with ⟨_, -, owner, -, interface, -, hDraft⟩
  split at hDraft
  case h_1 => cases hDraft
  case h_2 =>
      rcases ok_bind.mp hDraft with ⟨⟨_, draft⟩, -, hNamed⟩
      dsimp only at hNamed
      split at hNamed
      case h_1 => cases hNamed
      case h_2 hMade =>
          cases hNamed
          exact CompiledClass.isFor_of_ofTy hMade

/- Each definition makes the class of its declaration. -/
theorem compileDefs_linked
    {config : Config}
    {symbols : SymbolTable}
    {defs : List (PackageName × StrategyDef)}
    {classes : List CompiledClass}
    (hMade : (compileDefs config symbols defs).result =
      .ok classes) :
    List.Forall₂ (MadeFor symbols) defs classes := by
  have hOrder := compileDefs_inOrder config symbols defs
  exact (hOrder.of_result hMade).imp fun _ _ hOne =>
    madeFor_of_compileDef hOne

theorem isFor_of_mem
    {symbols : SymbolTable}
    {defs : List (PackageName × StrategyDef)}
    {classes : List CompiledClass}
    {c : CompiledClass}
    (hLinked : List.Forall₂ (MadeFor symbols) defs classes)
    (hIn : c ∈ classes) :
    ∃ q, c.IsFor q := by
  induction hLinked with
  | nil => cases hIn
  | cons hFirst _ ih =>
      rcases List.mem_cons.mp hIn with rfl | hIn
      · rcases hFirst with ⟨decl, -, hFor⟩
        exact ⟨decl.name, hFor⟩
      · exact ih hIn

/- Pairs that are alike on one side are so on the other. -/
theorem nodup_map_iff_of_forall₂
    {α β γ δ : Type}
    {R : α → β → Prop}
    {f : α → γ}
    {g : β → δ}
    {xs : List α}
    {ys : List β}
    (hPairs : List.Forall₂ R xs ys)
    (hSame : ∀ x y x' y', R x y → R x' y' →
      (f x = f x' ↔ g y = g y')) :
    (xs.map f).Nodup ↔ (ys.map g).Nodup := by
  have hMem : ∀ {xs ys} x y, R x y → List.Forall₂ R xs ys →
      (f x ∈ xs.map f ↔ g y ∈ ys.map g) := by
    intro xs ys x y hxy hPairs
    induction hPairs with
    | nil => simp
    | cons hFirst _ ih =>
        rw [List.map_cons, List.map_cons, List.mem_cons,
          List.mem_cons, ih, hSame _ _ _ _ hxy hFirst]
  induction hPairs with
  | nil => simp
  | cons hFirst hRest ih =>
      rw [List.map_cons, List.map_cons, List.nodup_cons,
        List.nodup_cons]
      exact and_congr (not_congr (hMem _ _ hFirst hRest)) ih

theorem linked_of_compile
    {config : Config}
    {p : Project}
    {classes : List CompiledClass}
    (hMade : (p.compile config).result = .ok classes) :
    ∃ symbols, SymbolTable.ofDecls p.decls = .ok symbols ∧
      List.Forall₂ (MadeFor symbols) p.defs classes := by
  unfold Project.compile at hMade
  split at hMade
  case h_1 => cases hMade
  case h_2 =>
      split at hMade
      case h_1 => cases hMade
      case h_2 symbols hTable =>
          exact ⟨symbols, hTable, compileDefs_linked hMade⟩

/- No two of some definitions are for one declaration. -/
def DefinedOnce
    (symbols : SymbolTable)
    (defs : List (PackageName × StrategyDef)) : Prop :=
  (defs.map fun d => symbols.declarationOf d.2).Nodup

/-
  What tells names apart tells classes apart exactly if no
  declaration is defined twice.
-/
theorem nodup_keys_iff
    {κ : Type}
    {key : CompiledClass → κ}
    {ds : List Decl}
    {symbols : SymbolTable}
    {defs : List (PackageName × StrategyDef)}
    {classes : List CompiledClass}
    (hTable : SymbolTable.ofDecls ds = .ok symbols)
    (hLinked : List.Forall₂ (MadeFor symbols) defs classes)
    (hKey : ∀ c d q r, c.IsFor q → d.IsFor r →
      (key c = key d ↔ q = r)) :
    (classes.map key).Nodup ↔ DefinedOnce symbols defs := by
  symm
  apply nodup_map_iff_of_forall₂ hLinked
  rintro d c d' c' ⟨decl, hDecl, hFor⟩ ⟨decl', hDecl', hFor'⟩
  rw [hDecl, hDecl', hKey c c' _ _ hFor hFor', Except.ok.injEq]
  constructor
  · rintro rfl
    rfl
  · exact SymbolTable.eq_of_name_eq hTable
      (SymbolTable.mem_of_declarationOf hDecl)
      (SymbolTable.mem_of_declarationOf hDecl')

/- The files that are there once all classes are stored. -/
theorem exists_holds_storeAll
    {folder : String}
    {root : List String}
    {classes : List CompiledClass}
    {t t' : FileTree}
    {error : Option CompileError}
    {o : Outcome}
    (hPlain : ∀ c ∈ classes, ∀ name ∈ c.path, IsPlainName name)
    (hRoot : FileTree.components folder = .ok root)
    (hStored : (storeAll folder error classes :
      StateM FileTree Outcome) t = (o, t'))
    (hDone : o.error = none)
    (q : List String) :
    (∃ found, t'.Holds q found) ↔
      (∃ found, t.Holds q found) ∨
        q ∈ classes.map fun c => root ++ c.path := by
  simp only [holds_storeAll hPlain hRoot hStored hDone q]
  cases hLast : lastAt root classes q with
  | some c =>
      have hIn : q ∈ classes.map fun c => root ++ c.path := by
        have hPath := List.find?_some hLast
        have hMem := List.mem_of_find?_eq_some hLast
        rw [List.mem_reverse] at hMem
        exact List.mem_map.mpr ⟨c, hMem, by simpa using hPath⟩
      simp [hIn]
  | none =>
      have hNone : q ∉ classes.map fun c => root ++ c.path := by
        unfold lastAt at hLast
        rw [List.find?_eq_none] at hLast
        simpa using hLast
      simp [hNone]

/-
  The classes of a project, one for each definition, have
  different names and go to different paths exactly if no
  declaration is defined twice.  Storing them adds a file for
  each of these paths, and no other file.
-/
theorem Project.classes_distinct_iff
    (config : Config)
    (p : Project)
    (classes : List CompiledClass)
    (hMade : (p.compile config).result = .ok classes) :
    ∃ symbols, SymbolTable.ofDecls p.decls = .ok symbols ∧
      classes.length = p.defs.length ∧
      ((classes.map CompiledClass.internalName).Nodup ↔
        DefinedOnce symbols p.defs) ∧
      ((classes.map CompiledClass.path).Nodup ↔
        DefinedOnce symbols p.defs) ∧
      ∀ folder root t o t',
        FileTree.components folder = .ok root →
        ((p.compile config).store folder :
          StateM FileTree Outcome) t = (o, t') →
        o.error = none →
        ∀ q, (∃ found, t'.Holds q found) ↔
          (∃ found, t.Holds q found) ∨
            q ∈ classes.map fun c => root ++ c.path := by
  rcases linked_of_compile hMade with ⟨symbols, hTable, hLinked⟩
  refine ⟨symbols, hTable, hLinked.length_eq.symm, ?_, ?_, ?_⟩
  · refine nodup_keys_iff hTable hLinked ?_
    intro c d q r hc hd
    refine ⟨hc.internalName_inj hd, ?_⟩
    rintro rfl
    rw [hc.internalName_eq, hd.internalName_eq]
  · refine nodup_keys_iff hTable hLinked ?_
    intro c d q r hc hd
    refine ⟨hc.path_inj hd, ?_⟩
    rintro rfl
    rw [hc.path_eq, hd.path_eq]
  · intro folder root t o t' hRoot hStored hDone
    have hPlain : ∀ c ∈ classes, ∀ name ∈ c.path,
        IsPlainName name := by
      intro c hIn
      rcases isFor_of_mem hLinked hIn with ⟨q, hFor⟩
      exact hFor.isPlainName
    rw [Outcome.store, (Outcome.result_eq_ok.mp hMade).2] at hStored
    exact exists_holds_storeAll hPlain hRoot hStored hDone

------------------------------------------------------------
-- A Sample
------------------------------------------------------------

theorem QName.isLegal_a : isLegal "a" = true := by
  decide +kernel

theorem QName.isLegal_b : isLegal "b" = true := by
  decide +kernel

/- Two declared strategies, and what the second definition is for. -/
def pairProject
    (second : Pointer) : Project :=
  let a : QName := ⟨.root, "a", QName.isLegal_a⟩
  let b : QName := ⟨.root, "b", QName.isLegal_b⟩
  let ty : StrategyType :=
    { params := [], input := .base .long, output := .base .long }
  let declare name index := .strategy
    { name, ty, modifiers := [], pointer := { resource := "p", index } }
  let define name pointer :=
    { name, params := [], input := "x"
      body := .var "x" none (.base .long), pointer := some pointer }
  { modules := [{
      name := .root
      decls := [declare a 0, declare b 1]
      defs := [define a { resource := "p", index := 0 },
        define b second] }] }

/- Settings without the check of what was made. -/
def unchecked : Config :=
  { classVersion := 49, verify := false }

theorem pairProject_distinct :
    ∃ symbols classes,
      ((pairProject { resource := "p", index := 1 }).compile
        unchecked).result = .ok classes ∧
      DefinedOnce symbols
        (pairProject { resource := "p", index := 1 }).defs ∧
      (classes.map CompiledClass.path).Nodup := by
  let p := pairProject { resource := "p", index := 1 }
  have hMade : (p.compile unchecked).error.isNone = true ∧
      (p.compile unchecked).classes.map CompiledClass.internalName =
        ["aStrategy", "bStrategy"] := by
    decide +kernel
  have hResult : (p.compile unchecked).result =
      .ok (p.compile unchecked).classes :=
    Outcome.result_eq_ok.mpr
      ⟨Option.isNone_iff_eq_none.mp hMade.1, rfl⟩
  rcases p.classes_distinct_iff unchecked _ hResult with
    ⟨symbols, -, -, hNames, hPaths, -⟩
  have hOnce : DefinedOnce symbols p.defs :=
    hNames.mp (by rw [hMade.2]; decide)
  exact ⟨symbols, _, hResult, hOnce, hPaths.mpr hOnce⟩

/- Two definitions of one declaration make one file. -/
theorem pairProject_overwrites :
    ∃ classes, ((pairProject { resource := "p", index := 0 }).compile
        unchecked).result = .ok classes ∧
      classes.map CompiledClass.internalName =
        ["aStrategy", "aStrategy"] ∧
      classes.map CompiledClass.path =
        [["aStrategy.class"], ["aStrategy.class"]] := by
  let p := pairProject { resource := "p", index := 0 }
  have hMade : (p.compile unchecked).error.isNone = true ∧
      (p.compile unchecked).classes.map CompiledClass.internalName =
        ["aStrategy", "aStrategy"] ∧
      (p.compile unchecked).classes.map CompiledClass.path =
        [["aStrategy.class"], ["aStrategy.class"]] := by
    decide +kernel
  exact ⟨_, Outcome.result_eq_ok.mpr
    ⟨Option.isNone_iff_eq_none.mp hMade.1, rfl⟩, hMade.2⟩

end Stratagem

import Stratagem.Lowering.Compile
import Stratagem.Proofs.Code.Calls
import Stratagem.Proofs.Lowering.Code
import Stratagem.Proofs.Program.Declarations

/-
  Names of classes that a compilation can mention.

  If the descriptor of every such class can be read, then so
  can the descriptor of every type that a type of values
  becomes.

  Key definitions include:
    * `NamesAccepted`

  Main declarations:
    * `Context.legible_of_lower`
    * `Context.strategyTy_eq`
    * `SymbolTable.decls_of_ofDecls`
-/

namespace Stratagem

open Jvm

------------------------------------------------------------
-- Accepted Names
------------------------------------------------------------

/-
  The names of declared classes, of the classes made for
  strategies and of the interfaces are read as names of
  classes.
-/
structure NamesAccepted
    (config : Config)
    (decls : List Decl) : Prop where
  classes : ∀ d, .classType d ∈ decls →
    AcceptsName (d.name.internalName "")
  strategies : ∀ d, .strategy d ∈ decls →
    AcceptsName (d.name.internalName "Strategy")
  interfaces : ∀ n name, config.strategyInterface n = .ok name →
    AcceptsName name

------------------------------------------------------------
-- Symbol Tables
------------------------------------------------------------

namespace SymbolTable

variable {t : SymbolTable}

/- A table has the declarations that were entered. -/
theorem decls_of_ofDecls
    {ds : List Decl}
    (hTable : ofDecls ds = .ok t) :
    t.decls = ds := by
  rw [(ofDecls_eq_ok_iff.mp hTable).1]

theorem mem_of_strategy?
    {p : Pointer}
    {d : StrategyDecl}
    (hDecl : t.strategy? p = some d) :
    .strategy d ∈ t.decls := by
  rcases Option.bind_eq_some_iff.mp hDecl with ⟨e, hFound, hKind⟩
  cases e with
  | strategy d' =>
      cases hKind
      exact List.mem_of_find?_eq_some hFound
  | classType d' => cases hKind

theorem mem_of_class?
    {p : Pointer}
    {d : ClassDecl}
    (hDecl : t.class? p = some d) :
    .classType d ∈ t.decls := by
  rcases Option.bind_eq_some_iff.mp hDecl with ⟨e, hFound, hKind⟩
  cases e with
  | strategy d' => cases hKind
  | classType d' =>
      cases hKind
      exact List.mem_of_find?_eq_some hFound

theorem mem_of_classNamed?
    {package : PackageName}
    {simple : String}
    {d : ClassDecl}
    (hDecl : t.classNamed? package simple = some d) :
    .classType d ∈ t.decls := by
  have hCandidate : ∀ d,
      d ∈ (t.decls.filterMap Decl.class?).filter
        (·.name.simple = simple) → .classType d ∈ t.decls := by
    intro d hIn
    exact mem_classes_iff.mp (List.mem_filter.mp hIn).1
  unfold classNamed? at hDecl
  dsimp only at hDecl
  split at hDecl
  case h_1 hFound =>
      cases hDecl
      exact hCandidate d (List.mem_of_find?_eq_some hFound)
  case h_2 hOnly =>
      cases hDecl
      apply hCandidate d
      rw [hOnly]
      exact List.mem_singleton_self d
  case h_3 => cases hDecl

theorem mem_of_declarationOf
    {definition : StrategyDef}
    {d : StrategyDecl}
    (hDecl : t.declarationOf definition = .ok d) :
    .strategy d ∈ t.decls := by
  unfold declarationOf at hDecl
  split at hDecl
  case h_1 =>
      split at hDecl
      case h_1 hFound =>
          cases hDecl
          exact mem_of_strategy? hFound
      case h_2 => cases hDecl
  case h_2 =>
      split at hDecl
      case h_1 hFound =>
          cases hDecl
          rcases Option.bind_eq_some_iff.mp hFound with
            ⟨e, hNamed, hKind⟩
          cases e with
          | strategy d' =>
              cases hKind
              exact List.mem_of_find?_eq_some hNamed
          | classType d' => cases hKind
      case h_2 => cases hDecl

end SymbolTable

------------------------------------------------------------
-- Types
------------------------------------------------------------

namespace Context

variable {c : Context}

theorem mem_of_resolve
    {name : String}
    {pointer : Option Pointer}
    {d : Decl}
    (hDecl : c.resolve name pointer = .ok d) :
    d ∈ c.symbols.decls := by
  unfold resolve at hDecl
  split at hDecl
  case h_1 hFound =>
      cases hDecl
      rcases Option.bind_eq_some_iff.mp hFound with ⟨p, -, hGet⟩
      exact List.mem_of_find?_eq_some hGet
  case h_2 =>
      rcases ok_bind.mp hDecl with ⟨last, -, hSearch⟩
      dsimp only at hSearch
      split at hSearch
      case h_1 hFound =>
          cases hSearch
          rcases List.exists_of_findSome?_eq_some hFound with
            ⟨p, -, hNamed⟩
          rcases Option.bind_eq_some_iff.mp hNamed with
            ⟨q, -, hGet⟩
          exact List.mem_of_find?_eq_some hGet
      case h_2 => cases hSearch

/- Lowered types can be read back. -/
theorem legible_of_lower
    {ty : ValueType}
    {t : Ty}
    (hNames : NamesAccepted c.config c.symbols.decls)
    (hType : c.lower ty = .ok t) :
    t.Legible := by
  cases ty with
  | base b =>
      cases b <;> cases hType <;>
        first
        | exact Ty.legible_primitive _
        | exact Ty.legible_ofClass [] ⟨_, rfl⟩
  | strategy params input output =>
      simp only [lower, ok_bind] at hType
      rcases hType with ⟨_, _, _, _, _, _, name, hName, hEnd⟩
      cases hEnd
      exact Ty.legible_ofClass _ (hNames.interfaces _ _ hName)
  | tuple components => simp [lower] at hType
  | list element =>
      simp only [lower, ok_bind] at hType
      rcases hType with ⟨_, _, hEnd⟩
      cases hEnd
      exact Ty.legible_ofClass _ ⟨_, rfl⟩
  | classRef name pointer =>
      simp only [lower, lowerClass] at hType
      split at hType
      case h_1 d hDecl =>
          cases hType
          refine Ty.legible_ofClass [] (hNames.classes d ?_)
          cases pointer with
          | some p => exact SymbolTable.mem_of_class? hDecl
          | none => exact SymbolTable.mem_of_classNamed? hDecl
      case h_2 => cases hType

/- Arguments of a class are as many as the types they are for. -/
theorem length_of_lowerArgs
    {tys : List ValueType}
    {ts : List Ty}
    (hTypes : c.lowerArgs tys = .ok ts) :
    ts.length = tys.length := by
  induction tys generalizing ts with
  | nil =>
      simp only [lowerArgs] at hTypes
      cases hTypes
      rfl
  | cons ty tys ih =>
      simp only [lowerArgs, ok_bind] at hTypes
      rcases hTypes with ⟨t, -, us, hRest, hEnd⟩
      cases hEnd
      rw [List.length_cons, List.length_cons, ih hRest]

/- A strategy is an object of the interface for its arity. -/
theorem strategyTy_eq
    {s : StrategyType}
    {t : Ty}
    (hType : c.strategyTy s = .ok t) :
    ∃ interface args,
      c.config.strategyInterface s.arity = .ok interface ∧
        t = .object (.top interface args) := by
  simp only [strategyTy, StrategyType.toValueType, lower, ok_bind]
    at hType
  rcases hType with
    ⟨params, hParams, _, _, _, _, interface, hName, hEnd⟩
  rw [length_of_lowerArgs hParams] at hName
  cases hEnd
  exact ⟨interface, _, hName, rfl⟩

theorem mem_lowerAll
    {tys : List ValueType}
    {ts : List Ty}
    (hTypes : c.lowerAll tys = .ok ts) :
    ∀ t ∈ ts, ∃ ty, c.lower ty = .ok t := by
  induction tys generalizing ts with
  | nil =>
      cases hTypes
      exact nofun
  | cons ty tys ih =>
      simp only [lowerAll, ok_bind] at hTypes
      rcases hTypes with ⟨t, hType, us, hRest, hEnd⟩
      cases hEnd
      intro u hIn
      rcases List.mem_cons.mp hIn with rfl | hTail
      · exact ⟨ty, hType⟩
      · exact ih hRest u hTail

end Context

end Stratagem

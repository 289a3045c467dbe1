import Mathlib.Data.List.Forall2
import Stratagem.Lowering.Compile

/-
  What comes of definitions that are compiled in order.

  The classes are those of all definitions, or of those before
  the first that has no class.

  Key definitions include:
    * `InOrder`
    * `Term.MadeInOrder`

  Main declarations:
    * `compileDefs_inOrder`
    * `InOrder.of_result`
    * `Term.compile_madeInOrder`
-/

namespace Stratagem

theorem Outcome.result_eq_ok
    {o : Outcome}
    {classes : List CompiledClass} :
    o.result = .ok classes ↔
      o.error = none ∧ o.classes = classes := by
  unfold result
  split
  case h_1 e hError => simp [hError]
  case h_2 hNone => simp [hNone]

/-
  The classes of all definitions in order, or of those before
  the first that has none, and why it has none.
-/
def InOrder
    (config : Config)
    (symbols : SymbolTable)
    (defs : List (PackageName × StrategyDef))
    (o : Outcome) : Prop :=
  ∃ before behind, defs = before ++ behind ∧
    List.Forall₂
      (fun d c => compileDef config symbols d.1 d.2 = .ok c)
      before o.classes ∧
    (behind = [] ∧ o.error = none ∨
      ∃ d rest e, behind = d :: rest ∧
        compileDef config symbols d.1 d.2 = .error e ∧
        o.error = some e)

theorem compileDefs_inOrder
    (config : Config)
    (symbols : SymbolTable)
    (defs : List (PackageName × StrategyDef)) :
    InOrder config symbols defs
      (compileDefs config symbols defs) := by
  induction defs with
  | nil => exact ⟨[], [], rfl, .nil, .inl ⟨rfl, rfl⟩⟩
  | cons entry defs ih =>
      rcases entry with ⟨package, d⟩
      rw [compileDefs]
      cases hFirst : compileDef config symbols package d with
      | error e =>
          exact ⟨[], _, rfl, .nil,
            .inr ⟨(package, d), defs, e, rfl, hFirst, rfl⟩⟩
      | ok c =>
          rcases ih with ⟨before, behind, rfl, hMade, hEnd⟩
          exact ⟨(package, d) :: before, behind, rfl,
            .cons hFirst hMade, hEnd⟩

/- A run without an error has a class for each definition. -/
theorem InOrder.of_result
    {config : Config}
    {symbols : SymbolTable}
    {defs : List (PackageName × StrategyDef)}
    {o : Outcome}
    {classes : List CompiledClass}
    (hOrder : InOrder config symbols defs o)
    (hResult : o.result = .ok classes) :
    List.Forall₂
      (fun d c => compileDef config symbols d.1 d.2 = .ok c)
      defs classes := by
  rcases Outcome.result_eq_ok.mp hResult with ⟨hNone, rfl⟩
  rcases hOrder with ⟨before, behind, rfl, hMade, hEnd⟩
  rcases hEnd with ⟨rfl, -⟩ | ⟨d, rest, e, -, -, hError⟩
  · rwa [List.append_nil]
  · rw [hNone] at hError
    cases hError

/-
  A unit fails before its definitions, or its classes are
  those of its definitions in order.
-/
def Term.MadeInOrder
    (config : Config)
    (t : Term)
    (o : Outcome) : Prop :=
  (o.classes = [] ∧ o.error.isSome = true) ∨
    ∃ p symbols, t.project = .ok p ∧
      SymbolTable.ofDecls p.decls = .ok symbols ∧
      InOrder config symbols p.defs o

theorem Term.compile_madeInOrder
    (config : Config)
    (t : Term) :
    t.MadeInOrder config (t.compile config) := by
  unfold Term.compile
  split
  case h_1 => exact .inl ⟨rfl, rfl⟩
  case h_2 p hProject =>
      unfold Project.compile
      split
      case h_1 => exact .inl ⟨rfl, rfl⟩
      case h_2 =>
          split
          case h_1 => exact .inl ⟨rfl, rfl⟩
          case h_2 symbols hTable =>
              exact .inr ⟨p, symbols, hProject, hTable,
                compileDefs_inOrder config symbols p.defs⟩

end Stratagem

import Stratagem.Proofs.Lowering.Order
import Stratagem.Proofs.Program.Declarations

/-
  What the class of a definition depends on.

  Code generation asks the symbol table three kinds of
  questions, and it uses some of the settings.  Contexts that
  give the same answers make the same classes.  In particular,
  the order of the declarations makes no difference.

  Key definitions include:
    * `Context.Alike`
    * `classFor`

  Main declarations:
    * `Context.Alike.generate`
    * `compileDef_of_agrees`
    * `Project.compile_permuted`
-/

namespace Stratagem

open Jvm

------------------------------------------------------------
-- Contexts
------------------------------------------------------------

/- Contexts in which code generation finds the same. -/
structure Context.Alike
    (c c' : Context) : Prop where
  symbols : c.symbols.Agrees c'.symbols
  interfaces : ∀ n,
    c.config.strategyInterface n = c'.config.strategyInterface n
  lastPackage :
    c.config.defaultPackageName = c'.config.defaultPackageName
  version : c.config.classVersion = c'.config.classVersion
  package : c.package = c'.package

namespace Context.Alike

variable {c c' : Context}

theorem lowerClass
    (hAlike : c.Alike c')
    (name : String)
    (pointer : Option Pointer) :
    c.lowerClass name pointer = c'.lowerClass name pointer := by
  simp only [Context.lowerClass, SymbolTable.class?,
    hAlike.symbols.pointers, hAlike.symbols.classes,
    hAlike.package]

mutual

theorem lower
    (hAlike : c.Alike c')
    (ty : ValueType) :
    c.lower ty = c'.lower ty := by
  cases ty with
  | base b => simp only [Context.lower]
  | strategy params input output =>
      simp only [Context.lower, hAlike.lowerArgs params,
        hAlike.lower input, hAlike.lower output,
        hAlike.interfaces]
  | tuple components => simp only [Context.lower]
  | list element =>
      simp only [Context.lower, hAlike.lower element]
  | classRef name pointer =>
      simp only [Context.lower, hAlike.lowerClass]

theorem lowerArgs
    (hAlike : c.Alike c')
    (tys : List ValueType) :
    c.lowerArgs tys = c'.lowerArgs tys := by
  cases tys with
  | nil => simp only [Context.lowerArgs]
  | cons ty tys =>
      simp only [Context.lowerArgs, hAlike.lower ty,
        hAlike.lowerArgs tys]

end

theorem strategyTy
    (hAlike : c.Alike c')
    (s : StrategyType) :
    c.strategyTy s = c'.strategyTy s :=
  hAlike.lower _

theorem lowerAll
    (hAlike : c.Alike c')
    (tys : List ValueType) :
    c.lowerAll tys = c'.lowerAll tys := by
  induction tys with
  | nil => rfl
  | cons ty tys ih =>
      simp only [Context.lowerAll, hAlike.lower, ih]

theorem immediate
    (hAlike : c.Alike c')
    (env : Environment)
    (e : Exp) :
    c.immediate env e = c'.immediate env e := by
  have hResolve : ∀ name pointer,
      c.resolve name pointer = c'.resolve name pointer := by
    intro name pointer
    have hPointer : c.symbols.get? = c'.symbols.get? :=
      funext hAlike.symbols.pointers
    have hName : c.symbols.named? = c'.symbols.named? :=
      funext hAlike.symbols.names
    simp only [Context.resolve, hPointer, hName,
      hAlike.lastPackage, hAlike.package]
  cases e with
  | var name pointer ty =>
      simp only [Context.immediate, Context.global, hResolve]
  | int n ty =>
      simp only [Context.immediate, Context.literal, hAlike.lower]
  | _ => rfl

theorem boxedArgs
    (hAlike : c.Alike c')
    (env : Environment)
    (es : List Exp) :
    c.boxedArgs env es = c'.boxedArgs env es := by
  induction es with
  | nil => rfl
  | cons e es ih =>
      simp only [Context.boxedArgs, hAlike.immediate, ih]

theorem compound
    (hAlike : c.Alike c')
    (env : Environment)
    (ctx : Local)
    (e : Exp) :
    c.compound env ctx e = c'.compound env ctx e := by
  cases e with
  | apply function args ty =>
      simp only [Context.compound, Context.application,
        Context.applyDescriptor, hAlike.immediate,
        hAlike.strategyTy, hAlike.boxedArgs, hAlike.interfaces]
  | eval strategy input ty =>
      simp only [Context.compound, Context.evaluation,
        hAlike.immediate, hAlike.strategyTy, hAlike.lower,
        hAlike.interfaces]
  | _ => simp only [Context.compound, hAlike.immediate]

theorem spine
    (hAlike : c.Alike c')
    (ctx : Local)
    (e : Exp)
    (env : Environment) :
    c.spine ctx e env = c'.spine ctx e env := by
  induction e, env using Context.spine.induct with
  | case1 name bound body ty env ih =>
      simp only [Context.spine, hAlike.lower, hAlike.compound, ih]
  | case2 e env hOther =>
      rw [Context.spine, Context.spine, hAlike.compound]
      · exact hOther
      · exact hOther

/- Alike contexts make one class of a definition. -/
theorem generate
    (hAlike : c.Alike c')
    (decl : StrategyDecl)
    (definition : StrategyDef) :
    c.generate decl definition = c'.generate decl definition := by
  have hBody : ∀ e env ctx,
      c.assemble e env ctx = c'.assemble e env ctx := by
    intro e env ctx
    simp only [Context.assemble, hAlike.spine]
  have hClass : c.classSignature decl = c'.classSignature decl := by
    simp only [Context.classSignature, hAlike.strategyTy]
  have hEval :
      c.evalSignature decl.ty = c'.evalSignature decl.ty := by
    simp only [Context.evalSignature, hAlike.lowerAll,
      hAlike.lower]
  simp only [Context.generate, Context.writeMembers,
    Context.writeEval, hBody, hClass, hEval, hAlike.interfaces,
    hAlike.version]

end Context.Alike

------------------------------------------------------------
-- Definitions
------------------------------------------------------------

/- Tables that agree make one class of a definition. -/
theorem compileDef_of_agrees
    {t t' : SymbolTable}
    (hAgrees : t.Agrees t')
    (config : Config)
    (package : PackageName)
    (d : StrategyDef) :
    compileDef config t package d =
      compileDef config t' package d := by
  have hDecl : t.declarationOf d = t'.declarationOf d := by
    simp only [SymbolTable.declarationOf, SymbolTable.strategy?,
      hAgrees.pointers, hAgrees.names]
  have hAlike : Context.Alike { symbols := t, config, package }
      { symbols := t', config, package } :=
    ⟨hAgrees, fun _ => rfl, rfl, rfl, rfl⟩
  simp only [compileDef, hDecl, Context.compileStrategy,
    hAlike.generate]

/- The class of a definition among declarations. -/
def classFor
    (config : Config)
    (decls : List Decl)
    (d : PackageName × StrategyDef) :
    Except CompileError CompiledClass := do
  let symbols ← SymbolTable.ofDecls decls
  compileDef config symbols d.1 d.2

theorem classFor_eq
    {decls : List Decl}
    (hDistinct : SymbolTable.Distinct decls)
    (config : Config)
    (d : PackageName × StrategyDef) :
    classFor config decls d =
      compileDef config { decls } d.1 d.2 := by
  unfold classFor
  rw [SymbolTable.ofDecls_eq_ok_iff.mpr ⟨rfl, hDistinct⟩]
  rfl

/- The class does not depend on the order of declarations. -/
theorem classFor_perm
    {decls decls' : List Decl}
    (hPerm : decls.Perm decls')
    (hDistinct : SymbolTable.Distinct decls)
    (config : Config) :
    classFor config decls = classFor config decls' := by
  funext d
  rw [classFor_eq hDistinct, classFor_eq (hDistinct.perm hPerm)]
  exact compileDef_of_agrees
    (SymbolTable.agrees_of_perm hPerm hDistinct) config d.1 d.2

------------------------------------------------------------
-- Projects
------------------------------------------------------------

/- A run is a success if each definition has a class. -/
theorem compileDefs_result_eq_ok_iff
    {config : Config}
    {symbols : SymbolTable}
    {defs : List (PackageName × StrategyDef)}
    {classes : List CompiledClass} :
    (compileDefs config symbols defs).result = .ok classes ↔
      defs.map (fun d => compileDef config symbols d.1 d.2) =
        classes.map .ok := by
  constructor
  · intro hMade
    have hOrder := compileDefs_inOrder config symbols defs
    rw [← List.forall₂_eq_eq_eq, List.forall₂_map_left_iff,
      List.forall₂_map_right_iff]
    exact hOrder.of_result hMade
  · intro hAll
    rw [Outcome.result_eq_ok]
    induction defs generalizing classes with
    | nil =>
        rw [List.map_nil, eq_comm, List.map_eq_nil_iff] at hAll
        exact ⟨rfl, hAll.symm⟩
    | cons d defs ih =>
        rcases List.map_eq_cons_iff.mp hAll.symm with
          ⟨compiled, rest, rfl, hFirst, hRest⟩
        rcases ih hRest.symm with ⟨hNone, hClasses⟩
        dsimp only at hFirst
        rw [compileDefs, ← hFirst]
        exact ⟨hNone, congrArg (compiled :: ·) hClasses⟩

/-
  A project is compiled if its settings are in order, its
  declarations keep apart, and each definition has a class.
-/
theorem Project.result_eq_ok_iff
    {config : Config}
    {p : Project}
    {classes : List CompiledClass} :
    (p.compile config).result = .ok classes ↔
      config.validate = .ok () ∧
        SymbolTable.Distinct p.decls ∧
        p.defs.map (classFor config p.decls) =
          classes.map .ok := by
  have hDefs : SymbolTable.Distinct p.decls →
      p.defs.map (classFor config p.decls) =
        p.defs.map fun d =>
          compileDef config { decls := p.decls } d.1 d.2 := by
    intro hDistinct
    exact List.map_congr_left fun d _ =>
      classFor_eq hDistinct config d
  unfold Project.compile
  constructor
  · intro hMade
    split at hMade
    case h_1 => cases hMade
    case h_2 hValid =>
        split at hMade
        case h_1 => cases hMade
        case h_2 symbols hTable =>
            rcases SymbolTable.ofDecls_eq_ok_iff.mp hTable with
              ⟨rfl, hDistinct⟩
            rw [hDefs hDistinct]
            exact ⟨hValid, hDistinct,
              compileDefs_result_eq_ok_iff.mp hMade⟩
  · rintro ⟨hValid, hDistinct, hAll⟩
    rw [hDefs hDistinct] at hAll
    rw [hValid,
      SymbolTable.ofDecls_eq_ok_iff.mpr ⟨rfl, hDistinct⟩]
    exact compileDefs_result_eq_ok_iff.mpr hAll

/- All results are there if each one is, in whatever order. -/
theorem exists_map_ok_iff
    {α β ε : Type}
    {f : α → Except ε β}
    {xs : List α} :
    (∃ ys : List β, xs.map f = ys.map .ok) ↔
      ∀ x ∈ xs, ∃ y, f x = .ok y := by
  constructor
  · rintro ⟨ys, hAll⟩ x hx
    have hResult : f x ∈ ys.map .ok :=
      hAll ▸ List.mem_map_of_mem hx
    rcases List.mem_map.mp hResult with ⟨y, -, hy⟩
    exact ⟨y, hy.symm⟩
  · intro hEach
    induction xs with
    | nil => exact ⟨[], rfl⟩
    | cons x xs ih =>
        rcases hEach x List.mem_cons_self with ⟨y, hy⟩
        rcases ih fun z hz => hEach z (List.mem_cons_of_mem x hz)
          with ⟨ys, hys⟩
        exact ⟨y :: ys, by rw [List.map_cons, hy, hys]; rfl⟩

/- A permuted project is compiled if the project is. -/
theorem Project.exists_result_of_perm
    {config : Config}
    {p p' : Project}
    (hDecls : p.decls.Perm p'.decls)
    (hDefs : p.defs.Perm p'.defs)
    (hMade : ∃ classes, (p.compile config).result = .ok classes) :
    ∃ classes, (p'.compile config).result = .ok classes := by
  rcases hMade with ⟨classes, hMade⟩
  rcases result_eq_ok_iff.mp hMade with ⟨hValid, hDistinct, hAll⟩
  have hEach : ∀ d ∈ p'.defs,
      ∃ compiled, classFor config p'.decls d = .ok compiled := by
    intro d hd
    rw [← classFor_perm hDecls hDistinct]
    exact exists_map_ok_iff.mp ⟨classes, hAll⟩ d
      (hDefs.mem_iff.mpr hd)
  rcases exists_map_ok_iff.mpr hEach with ⟨classes', hAll'⟩
  exact ⟨classes', result_eq_ok_iff.mpr
    ⟨hValid, hDistinct.perm hDecls, hAll'⟩⟩

/-
  The order of the declarations does not matter, nor in which
  modules they are.  Nor does the order of the definitions
  matter to their classes: those of equal definitions are the
  same, wherever these stand, so that with the definitions in
  their old places the classes are the same list.
-/
theorem Project.compile_permuted
    (config : Config)
    (p p' : Project)
    (hDecls : p.decls.Perm p'.decls)
    (hDefs : p.defs.Perm p'.defs) :
    ((∃ classes, (p.compile config).result = .ok classes) ↔
      ∃ classes, (p'.compile config).result = .ok classes) ∧
    ∀ classes classes',
      (p.compile config).result = .ok classes →
      (p'.compile config).result = .ok classes' →
      p.defs.map (classFor config p'.decls) = classes.map .ok ∧
        (∀ i j : Nat, p.defs[i]? = p'.defs[j]? →
          classes[i]? = classes'[j]?) ∧
        (p.defs = p'.defs → classes = classes') := by
  refine ⟨⟨exists_result_of_perm hDecls hDefs,
    exists_result_of_perm hDecls.symm hDefs.symm⟩, ?_⟩
  intro classes classes' hMade hMade'
  rcases result_eq_ok_iff.mp hMade with ⟨-, hDistinct, hAll⟩
  rcases result_eq_ok_iff.mp hMade' with ⟨-, -, hAll'⟩
  rw [classFor_perm hDecls hDistinct] at hAll
  have hPlaces : ∀ i j : Nat, p.defs[i]? = p'.defs[j]? →
      classes[i]? = classes'[j]? := by
    intro i j hSame
    have hi := congrArg (·[i]?) hAll
    have hj := congrArg (·[j]?) hAll'
    simp only [List.getElem?_map] at hi hj
    rw [hSame, hj] at hi
    exact (Option.map_injective (fun _ _ => Except.ok.inj) hi).symm
  refine ⟨hAll, hPlaces, ?_⟩
  intro hSame
  apply List.ext_getElem?
  intro i
  exact hPlaces i i (by rw [hSame])

------------------------------------------------------------
-- A Sample
------------------------------------------------------------

/-
  A strategy that runs another one, declared in two modules,
  and the same with the declarations the other way round.
-/
def spreadProject
    (swapped : Bool) : Project :=
  let any := ValueType.base .any
  let a : QName := ⟨.root, "a", by decide +kernel⟩
  let b : QName := ⟨.root, "b", by decide +kernel⟩
  let declare name index := .strategy
    { name, ty := { params := [], input := any, output := any }
      modifiers := [], pointer := { resource := "p", index } }
  let define :=
    { name := a, params := [], input := "x"
      body := .eval (.var "b" none (.strategy [] any any))
        (.var "x" none any) any
      pointer := none }
  match swapped with
  | false => { modules := [
      { name := .root, decls := [declare a 0], defs := [define] },
      { name := .root, decls := [declare b 1], defs := [] }] }
  | true => { modules := [
      { name := .root, decls := [declare b 1], defs := [define] },
      { name := .root, decls := [declare a 0], defs := [] }] }

theorem spreadProject_permuted :
    ∃ (config : Config) (classes : List CompiledClass),
      ((spreadProject false).compile config).result =
        .ok classes ∧
      ((spreadProject true).compile config).result =
        .ok classes := by
  let config : Config := { classVersion := 49, verify := false }
  have hMade :
      ((spreadProject false).compile config).error.isNone =
        true := by
    decide +kernel
  have hResult :=
    Outcome.result_eq_ok.mpr
      ⟨Option.isNone_iff_eq_none.mp hMade, rfl⟩
  rcases Project.compile_permuted config (spreadProject false)
      (spreadProject true) (List.Perm.swap _ _ [])
      (List.Perm.refl _) with
    ⟨hBoth, hSame⟩
  rcases hBoth.mp ⟨_, hResult⟩ with ⟨classes', hResult'⟩
  have hClasses := (hSame _ _ hResult hResult').2.2 rfl
  exact ⟨config, _, hResult, hClasses ▸ hResult'⟩

end Stratagem

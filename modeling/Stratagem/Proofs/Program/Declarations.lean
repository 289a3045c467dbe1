import Mathlib.Data.List.Nodup
import Stratagem.Program.SymbolTable
import Stratagem.Proofs.Steps

/-
  Tables of declarations.

  Declarations make a table if no two of them have one pointer
  or one name.  In a table like that every lookup finds one
  declaration at most, so that it does not matter in which
  order they were entered.

  Key definitions include:
    * `SymbolTable.Distinct`
    * `SymbolTable.Agrees`

  Main declarations:
    * `SymbolTable.ofDecls_eq_ok_iff`
    * `SymbolTable.agrees_of_perm`
-/

namespace Stratagem

namespace SymbolTable

------------------------------------------------------------
-- Entering Declarations
------------------------------------------------------------

/- No two declarations have one pointer or one name. -/
structure Distinct
    (ds : List Decl) : Prop where
  pointers : (ds.map Decl.pointer).Nodup
  names : (ds.map Decl.name).Nodup

theorem Distinct.perm
    {ds ds' : List Decl}
    (hDistinct : Distinct ds)
    (hPerm : ds.Perm ds') :
    Distinct ds' where
  pointers := (hPerm.map _).nodup_iff.mp hDistinct.pointers
  names := (hPerm.map _).nodup_iff.mp hDistinct.names

theorem Distinct.left
    {ds ds' : List Decl}
    (hDistinct : Distinct (ds ++ ds')) :
    Distinct ds where
  pointers := by
    have hPointers := hDistinct.pointers
    rw [List.map_append] at hPointers
    exact hPointers.of_append_left
  names := by
    have hNames := hDistinct.names
    rw [List.map_append] at hNames
    exact hNames.of_append_left

/- One more declaration is entered if it keeps apart. -/
theorem insert_eq_ok_iff
    {t t' : SymbolTable}
    {d : Decl}
    (hDistinct : Distinct t.decls) :
    t.insert d = .ok t' ↔
      t' = { decls := t.decls ++ [d] } ∧
        Distinct (t.decls ++ [d]) := by
  have hKeys : Distinct (t.decls ++ [d]) ↔
      (t.get? d.pointer).isSome = false ∧
        (t.named? d.name).isSome = false := by
    constructor
    · intro hBoth
      have hPointers := hBoth.pointers
      have hNames := hBoth.names
      rw [List.map_append, List.nodup_append] at hPointers hNames
      constructor
      · simpa [get?] using hPointers.2.2
      · simpa [named?] using hNames.2.2
    · rintro ⟨hPointer, hName⟩
      constructor
      · rw [List.map_append, List.nodup_append]
        refine ⟨hDistinct.pointers, List.nodup_singleton _, ?_⟩
        simpa [get?] using hPointer
      · rw [List.map_append, List.nodup_append]
        refine ⟨hDistinct.names, List.nodup_singleton _, ?_⟩
        simpa [named?] using hName
  rw [hKeys]
  unfold insert
  cases hPointer : (t.get? d.pointer).isSome with
  | true => simp
  | false =>
      cases hName : (t.named? d.name).isSome with
      | true => simp
      | false => simp [eq_comm]

/-
  Declarations make a table exactly if they keep apart, and
  then it holds them in order.
-/
theorem ofDecls_eq_ok_iff
    {ds : List Decl}
    {t : SymbolTable} :
    ofDecls ds = .ok t ↔ t = { decls := ds } ∧ Distinct ds := by
  have hFold : ∀ (ds : List Decl) (t₀ : SymbolTable),
      Distinct t₀.decls →
      (ds.foldlM insert t₀ = .ok t ↔
        t = { decls := t₀.decls ++ ds } ∧
          Distinct (t₀.decls ++ ds)) := by
    intro ds
    induction ds with
    | nil =>
        intro t₀ hSoFar
        rw [List.foldlM_nil, List.append_nil]
        constructor
        · intro hEnd
          cases hEnd
          exact ⟨rfl, hSoFar⟩
        · rintro ⟨rfl, -⟩
          rfl
    | cons d ds ih =>
        intro t₀ hSoFar
        have hSplit : t₀.decls ++ d :: ds =
            (t₀.decls ++ [d]) ++ ds := by simp
        rw [List.foldlM_cons, ok_bind, hSplit]
        constructor
        · rintro ⟨t₁, hOne, hRest⟩
          rcases (insert_eq_ok_iff hSoFar).mp hOne with
            ⟨rfl, hLonger⟩
          exact (ih _ hLonger).mp hRest
        · rintro ⟨hTable, hAll⟩
          have hLonger := hAll.left
          exact ⟨_, (insert_eq_ok_iff hSoFar).mpr ⟨rfl, hLonger⟩,
            (ih _ hLonger).mpr ⟨hTable, hAll⟩⟩
  exact hFold ds {} ⟨List.nodup_nil, List.nodup_nil⟩

------------------------------------------------------------
-- Looking Up
------------------------------------------------------------

/- Two tables give the same answers. -/
structure Agrees
    (t t' : SymbolTable) : Prop where
  pointers : ∀ p, t.get? p = t'.get? p
  names : ∀ q, t.named? q = t'.named? q
  classes : ∀ package simple,
    t.classNamed? package simple = t'.classNamed? package simple

theorem Agrees.refl
    (t : SymbolTable) :
    t.Agrees t :=
  ⟨fun _ => rfl, fun _ => rfl, fun _ _ => rfl⟩

/- A search for what there is one of does not see the order. -/
theorem find?_eq_of_perm
    {α : Type}
    {xs ys : List α}
    {p : α → Bool}
    (hPerm : xs.Perm ys)
    (hOne : ∀ x ∈ xs, ∀ y ∈ xs, p x = true → p y = true → x = y) :
    xs.find? p = ys.find? p := by
  cases hFound : ys.find? p with
  | none =>
      rw [List.find?_eq_none] at hFound ⊢
      intro x hx
      exact hFound x (hPerm.mem_iff.mp hx)
  | some y =>
      have hy := hPerm.mem_iff.mpr (List.mem_of_find?_eq_some hFound)
      have hTrue := List.find?_some hFound
      have hSome : (xs.find? p).isSome = true :=
        List.find?_isSome.mpr ⟨y, hy, hTrue⟩
      rcases Option.isSome_iff_exists.mp hSome with ⟨x, hFirst⟩
      rw [hFirst]
      rw [hOne x (List.mem_of_find?_eq_some hFirst) y hy
        (List.find?_some hFirst) hTrue]

theorem mem_classes_iff
    {ds : List Decl}
    {c : ClassDecl} :
    c ∈ ds.filterMap Decl.class? ↔ .classType c ∈ ds := by
  rw [List.mem_filterMap]
  constructor
  · rintro ⟨e, hIn, hClass⟩
    cases e with
    | strategy s => cases hClass
    | classType c' =>
        cases hClass
        exact hIn
  · intro hIn
    exact ⟨.classType c, hIn, rfl⟩

/- Classes are told apart by package and simple name. -/
theorem Distinct.class_eq
    {ds : List Decl}
    {d e : ClassDecl}
    (hDistinct : Distinct ds)
    (hd : d ∈ ds.filterMap Decl.class?)
    (he : e ∈ ds.filterMap Decl.class?)
    (hPackage : d.name.package = e.name.package)
    (hSimple : d.name.simple = e.name.simple) :
    d = e := by
  have hName : d.name = e.name := by
    rcases d with ⟨⟨package, simple, legal⟩, modifiers, pointer⟩
    rcases e with ⟨⟨package', simple', legal'⟩, modifiers', pointer'⟩
    cases hPackage
    cases hSimple
    rfl
  exact Decl.classType.inj
    (List.inj_on_of_nodup_map hDistinct.names
      (mem_classes_iff.mp hd) (mem_classes_iff.mp he) hName)

/-
  A class is found by package, or because it is the only one,
  and neither depends on the order.
-/
theorem classNamed?_eq_of_perm
    {ds ds' : List Decl}
    (hPerm : ds.Perm ds')
    (hDistinct : Distinct ds)
    (package : PackageName)
    (simple : String) :
    classNamed? { decls := ds } package simple =
      classNamed? { decls := ds' } package simple := by
  have hCandidates :=
    (hPerm.filterMap Decl.class?).filter
      fun d : ClassDecl => decide (d.name.simple = simple)
  have hLocal := find?_eq_of_perm
    (p := fun d : ClassDecl => decide (d.name.package = package))
    hCandidates (by
      intro d hd e he hInD hInE
      simp only [List.mem_filter, decide_eq_true_eq] at hd he hInD hInE
      exact hDistinct.class_eq hd.1 he.1 (hInD.trans hInE.symm)
        (hd.2.trans he.2.symm))
  unfold classNamed?
  dsimp only
  rw [hLocal]
  cases List.find? _ _ with
  | some d => rfl
  | none =>
      generalize (ds.filterMap Decl.class?).filter _ = xs
        at hCandidates ⊢
      generalize (ds'.filterMap Decl.class?).filter _ = ys
        at hCandidates ⊢
      match xs, ys, hCandidates with
      | [], ys, hCandidates =>
          rw [List.nil_perm.mp hCandidates]
      | [d], ys, hCandidates =>
          rw [List.singleton_perm.mp hCandidates]
      | d :: e :: xs, [], hCandidates =>
          exact absurd hCandidates.length_eq (by simp)
      | d :: e :: xs, [d'], hCandidates =>
          exact absurd hCandidates.length_eq (by simp)
      | d :: e :: xs, d' :: e' :: ys, _ => rfl

/- Tables of the same declarations give the same answers. -/
theorem agrees_of_perm
    {ds ds' : List Decl}
    (hPerm : ds.Perm ds')
    (hDistinct : Distinct ds) :
    Agrees { decls := ds } { decls := ds' } where
  pointers p := by
    apply find?_eq_of_perm hPerm
    intro d hd e he hAtD hAtE
    simp only [decide_eq_true_eq] at hAtD hAtE
    exact List.inj_on_of_nodup_map hDistinct.pointers hd he
      (hAtD.trans hAtE.symm)
  names q := by
    apply find?_eq_of_perm hPerm
    intro d hd e he hForD hForE
    simp only [decide_eq_true_eq] at hForD hForE
    exact List.inj_on_of_nodup_map hDistinct.names hd he
      (hForD.trans hForE.symm)
  classes := classNamed?_eq_of_perm hPerm hDistinct

end SymbolTable

end Stratagem

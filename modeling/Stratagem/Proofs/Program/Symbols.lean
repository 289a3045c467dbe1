import Stratagem.Program.SymbolIndex
import Stratagem.Proofs.Program.Declarations

/-
  What holds of the symbols, whatever was entered.

  Three containers are updated one behind the other, and they
  always describe the same declarations: those of a table that
  refuses what the containers refuse.  A declaration that is
  refused changes nothing.

  Key definitions include:
    * `SymbolIndex.Mirrors`
    * `SymbolIndex.Describes`

  Main declarations:
    * `SymbolTable.classNamed?_eq_some_iff`
    * `SymbolIndex.Mirrors.insert`
    * `SymbolIndex.mirrors_enterAll`
    * `SymbolIndex.entered_consistent`
-/

namespace Stratagem

------------------------------------------------------------
-- Tables
------------------------------------------------------------

namespace SymbolTable

section Lookups

variable {t : SymbolTable} {d : Decl}

/- What is found by a key that declarations do not share. -/
theorem find?_eq_some_iff
    {α : Type}
    [DecidableEq α]
    {ds : List Decl}
    {key : Decl → α}
    {k : α}
    (hKeys : (ds.map key).Nodup) :
    ds.find? (fun e => key e = k) = some d ↔
      d ∈ ds ∧ key d = k := by
  constructor
  · intro hFound
    exact ⟨List.mem_of_find?_eq_some hFound,
      by simpa using List.find?_some hFound⟩
  · rintro ⟨hIn, rfl⟩
    have hSome : (ds.find? fun e => key e = key d).isSome = true :=
      List.find?_isSome.mpr ⟨d, hIn, by simp⟩
    rcases Option.isSome_iff_exists.mp hSome with ⟨e, hFirst⟩
    have hKey : key e = key d := by
      simpa using List.find?_some hFirst
    rw [hFirst, List.inj_on_of_nodup_map hKeys
      (List.mem_of_find?_eq_some hFirst) hIn hKey]

theorem get?_eq_some_iff
    {p : Pointer}
    (hDistinct : Distinct t.decls) :
    t.get? p = some d ↔ d ∈ t.decls ∧ d.pointer = p :=
  find?_eq_some_iff hDistinct.pointers

theorem named?_eq_some_iff
    {q : QName}
    (hDistinct : Distinct t.decls) :
    t.named? q = some d ↔ d ∈ t.decls ∧ d.name = q :=
  find?_eq_some_iff hDistinct.names

theorem get?_isSome_iff
    {p : Pointer} :
    (t.get? p).isSome = true ↔ ∃ e ∈ t.decls, e.pointer = p := by
  simp [get?]

theorem named?_isSome_iff
    {q : QName} :
    (t.named? q).isSome = true ↔ ∃ e ∈ t.decls, e.name = q := by
  simp [named?]

/- No class is declared twice. -/
theorem Distinct.nodup_classes
    {ds : List Decl}
    (hDistinct : Distinct ds) :
    (ds.filterMap Decl.class?).Nodup := by
  refine (List.Nodup.of_map _ hDistinct.pointers).filterMap ?_
  intro d e c hd he
  cases d with
  | strategy s => cases hd
  | classType c =>
      cases e with
      | strategy s => cases he
      | classType c' =>
          cases hd
          cases he
          rfl

/-
  A class is found by its simple name if it is in the package,
  or if it is the only one with that name.
-/
theorem classNamed?_eq_some_iff
    {package : PackageName}
    {simple : String}
    {c : ClassDecl}
    (hDistinct : Distinct t.decls) :
    t.classNamed? package simple = some c ↔
      .classType c ∈ t.decls ∧ c.name.simple = simple ∧
        (c.name.package = package ∨
          ∀ c', .classType c' ∈ t.decls →
            c'.name.simple = simple → c' = c) := by
  have hMem : ∀ c,
      c ∈ (t.decls.filterMap Decl.class?).filter
          (·.name.simple = simple) ↔
        .classType c ∈ t.decls ∧ c.name.simple = simple := by
    intro c
    rw [List.mem_filter, mem_classes_iff, decide_eq_true_iff]
  have hNodup := hDistinct.nodup_classes.filter
    fun c : ClassDecl => decide (c.name.simple = simple)
  unfold classNamed?
  dsimp only
  generalize (t.decls.filterMap Decl.class?).filter _ = candidates
    at hMem hNodup ⊢
  cases hLocal : candidates.find? (·.name.package = package) with
  | some d =>
      have hd := (hMem d).mp (List.mem_of_find?_eq_some hLocal)
      have hPackage : d.name.package = package := by
        simpa using List.find?_some hLocal
      rw [Option.some.injEq]
      constructor
      · rintro rfl
        exact ⟨hd.1, hd.2, .inl hPackage⟩
      · rintro ⟨hIn, hSimple, hInside | hOnly⟩
        · exact hDistinct.class_eq (mem_classes_iff.mpr hd.1)
            (mem_classes_iff.mpr hIn) (hPackage.trans hInside.symm)
            (hd.2.trans hSimple.symm)
        · exact hOnly d hd.1 hd.2
  | none =>
      have hOutside : ∀ c ∈ candidates, c.name.package ≠ package := by
        simpa using hLocal
      match candidates, hMem, hNodup, hOutside with
      | [], hMem, _, _ =>
          refine ⟨(nomatch ·), ?_⟩
          rintro ⟨hIn, hSimple, -⟩
          cases (hMem c).mpr ⟨hIn, hSimple⟩
      | [d], hMem, _, hOutside =>
          rw [Option.some.injEq]
          constructor
          · rintro rfl
            have hd := (hMem d).mp (List.mem_singleton_self d)
            refine ⟨hd.1, hd.2, .inr ?_⟩
            intro c' hIn hSimple
            exact List.mem_singleton.mp ((hMem c').mpr ⟨hIn, hSimple⟩)
          · rintro ⟨hIn, hSimple, -⟩
            exact (List.mem_singleton.mp
              ((hMem c).mpr ⟨hIn, hSimple⟩)).symm
      | d :: e :: rest, hMem, hNodup, hOutside =>
          refine ⟨(nomatch ·), ?_⟩
          rintro ⟨hIn, hSimple, hInside | hOnly⟩
          · exact absurd hInside
              (hOutside c ((hMem c).mpr ⟨hIn, hSimple⟩))
          · -- two candidates would both be the only one
            have hd := (hMem d).mp (by simp)
            have he := (hMem e).mp (by simp)
            have hSame : d = e :=
              (hOnly d hd.1 hd.2).trans (hOnly e he.1 he.2).symm
            rw [hSame] at hNodup
            simp at hNodup

end Lookups

/-
  A declaration is refused for its pointer, else refused for
  its name, else entered.
-/
theorem insert_cases
    (t : SymbolTable)
    (d : Decl) :
    (∃ e ∈ t.decls, e.pointer = d.pointer) ∧
        t.insert d = .error (.duplicate d.pointer.display) ∨
      t.get? d.pointer = none ∧
        (∃ e ∈ t.decls, e.name = d.name) ∧
        t.insert d = .error (.duplicate d.name.display) ∨
      t.get? d.pointer = none ∧ t.named? d.name = none ∧
        t.insert d = .ok { decls := t.decls ++ [d] } := by
  unfold insert
  cases hPointer : t.get? d.pointer with
  | some e =>
      refine .inl ⟨get?_isSome_iff.mp ?_, rfl⟩
      rw [hPointer]
      rfl
  | none =>
      refine .inr ?_
      cases hName : t.named? d.name with
      | some e =>
          refine .inl ⟨rfl, named?_isSome_iff.mp ?_, rfl⟩
          rw [hName]
          rfl
      | none => exact .inr ⟨rfl, rfl, rfl⟩

/- A declaration is refused if its pointer or name is there. -/
theorem insert_fails_iff
    (t : SymbolTable)
    (d : Decl) :
    (∃ e, t.insert d = .error e) ↔
      ∃ d' ∈ t.decls,
        d'.pointer = d.pointer ∨ d'.name = d.name := by
  rcases insert_cases t d with
    ⟨⟨d', hIn, hSame⟩, hInsert⟩ |
    ⟨-, ⟨d', hIn, hSame⟩, hInsert⟩ |
    ⟨hPointer, hName, hInsert⟩
  · exact ⟨fun _ => ⟨d', hIn, .inl hSame⟩, fun _ => ⟨_, hInsert⟩⟩
  · exact ⟨fun _ => ⟨d', hIn, .inr hSame⟩, fun _ => ⟨_, hInsert⟩⟩
  · constructor
    · rintro ⟨e, hFails⟩
      rw [hInsert] at hFails
      cases hFails
    · rintro ⟨d', hIn, hSame | hSame⟩
      · have hThere := get?_isSome_iff.mpr ⟨d', hIn, hSame⟩
        rw [hPointer] at hThere
        cases hThere
      · have hThere := named?_isSome_iff.mpr ⟨d', hIn, hSame⟩
        rw [hName] at hThere
        cases hThere

theorem enter_decls
    (t : SymbolTable)
    (d : Decl) :
    (t.enter d).decls = t.decls ∨
      (t.enter d).decls = t.decls ++ [d] := by
  unfold enter
  rcases insert_cases t d with
    ⟨-, hInsert⟩ | ⟨-, -, hInsert⟩ | ⟨-, -, hInsert⟩
  · rw [hInsert]
    exact .inl rfl
  · rw [hInsert]
    exact .inl rfl
  · rw [hInsert]
    exact .inr rfl

/- Declarations that were entered are in the order of entering. -/
theorem sublist_foldl_enter
    (ds : List Decl)
    (t : SymbolTable) :
    (ds.foldl enter t).decls.Sublist (t.decls ++ ds) := by
  induction ds generalizing t with
  | nil => simp
  | cons d ds ih =>
      have hStep : (t.enter d).decls.Sublist (t.decls ++ [d]) := by
        rcases enter_decls t d with hSame | hMore
        · rw [hSame]
          exact List.sublist_append_left _ _
        · rw [hMore]
      have hAll := (ih (t.enter d)).trans (hStep.append_right ds)
      rwa [List.append_assoc] at hAll

theorem sublist_enterAll
    (ds : List Decl) :
    (enterAll ds).decls.Sublist ds :=
  sublist_foldl_enter ds {}

end SymbolTable

------------------------------------------------------------
-- Containers
------------------------------------------------------------

namespace SymbolIndex

/-
  The containers hold what a table holds: its declarations by
  pointer, their pointers by name, and the pointers in order.
-/
structure Mirrors
    (i : SymbolIndex)
    (t : SymbolTable) : Prop where
  pointers : ∀ p, i.byPointer[p]? = t.get? p
  names : ∀ q, i.byName[q]? = (t.named? q).map Decl.pointer
  order : i.order = t.decls.map Decl.pointer
  length : i.length = t.decls.length
  distinct : SymbolTable.Distinct t.decls

theorem mirrors_empty :
    Mirrors {} {} where
  pointers p := by simp [SymbolTable.get?]
  names q := by simp [SymbolTable.named?]
  order := rfl
  length := by simp [SymbolIndex.length]
  distinct := ⟨List.nodup_nil, List.nodup_nil⟩

section Mirroring

variable {i : SymbolIndex} {t : SymbolTable}

/- A declaration that is new is entered into each container. -/
theorem Mirrors.append
    {d : Decl}
    (hMirrors : i.Mirrors t)
    (hPointer : t.get? d.pointer = none)
    (hName : t.named? d.name = none)
    (hDistinct : SymbolTable.Distinct (t.decls ++ [d])) :
    Mirrors
      { byPointer := i.byPointer.insert d.pointer d
        byName := i.byName.insert d.name d.pointer
        order := i.order ++ [d.pointer] }
      { decls := t.decls ++ [d] } where
  pointers p := by
    have hLonger : SymbolTable.get? { decls := t.decls ++ [d] } p =
        (t.get? p).or (if d.pointer = p then some d else none) := by
      simp [SymbolTable.get?, List.find?_append,
        List.find?_singleton]
    rw [hLonger, Std.HashMap.getElem?_insert, hMirrors.pointers]
    by_cases hHere : d.pointer = p
    · simp [← hHere, hPointer]
    · simp [hHere]
  names q := by
    have hLonger :
        SymbolTable.named? { decls := t.decls ++ [d] } q =
          (t.named? q).or (if d.name = q then some d else none) := by
      simp [SymbolTable.named?, List.find?_append,
        List.find?_singleton]
    rw [hLonger, Std.HashMap.getElem?_insert, hMirrors.names]
    by_cases hHere : d.name = q
    · simp [← hHere, hName]
    · simp [hHere]
  order := by
    rw [hMirrors.order, List.map_append]
    rfl
  length := by
    have hNew : d.pointer ∉ i.byPointer := by
      rw [Std.HashMap.mem_iff_contains,
        Std.HashMap.contains_eq_isSome_getElem?,
        hMirrors.pointers, hPointer]
      simp
    have hLength := hMirrors.length
    unfold SymbolIndex.length at hLength ⊢
    rw [Std.HashMap.size_insert, if_neg hNew, hLength,
      List.length_append]
    rfl
  distinct := hDistinct

/- How a declaration is entered, or why it is refused. -/
theorem outcomeOf_insert
    (i : SymbolIndex)
    (d : Decl) :
    outcomeOf (SymbolIndex.insert d) i =
      if i.byPointer.contains d.pointer then
        (.error (.duplicate d.pointer.display), i)
      else if i.byName.contains d.name then
        (.error (.duplicate d.name.display), i)
      else
        (.ok ⟨⟩,
          { byPointer := i.byPointer.insert d.pointer d
            byName := i.byName.insert d.name d.pointer
            order := i.order ++ [d.pointer] }) := by
  have hRead : outcomeOf (get : Entering SymbolIndex) i =
      (.ok i, i) := rfl
  rw [SymbolIndex.insert, outcomeOf_bind, hRead]
  dsimp only
  split
  · rfl
  · split
    · rfl
    · rfl

/-
  The containers refuse a declaration as the table does, and
  are left as they were; or both enter it.
-/
theorem Mirrors.insert
    (hMirrors : i.Mirrors t)
    (d : Decl) :
    match t.insert d with
    | .error e => outcomeOf (SymbolIndex.insert d) i = (.error e, i)
    | .ok t' =>
        ∃ i', Yields (SymbolIndex.insert d) i ⟨⟩ i' ∧
          i'.Mirrors t' := by
  have hPointers : i.byPointer.contains d.pointer =
      (t.get? d.pointer).isSome := by
    rw [Std.HashMap.contains_eq_isSome_getElem?,
      hMirrors.pointers]
  have hNames : i.byName.contains d.name =
      (t.named? d.name).isSome := by
    rw [Std.HashMap.contains_eq_isSome_getElem?, hMirrors.names,
      Option.isSome_map]
  have hOutcome := outcomeOf_insert i d
  rcases SymbolTable.insert_cases t d with
    ⟨hThere, hInsert⟩ | ⟨hPointer, hThere, hInsert⟩ |
    ⟨hPointer, hName, hInsert⟩
  · rw [hPointers, SymbolTable.get?_isSome_iff.mpr hThere]
      at hOutcome
    rw [hInsert]
    exact hOutcome
  · rw [hPointers, hNames, hPointer,
      SymbolTable.named?_isSome_iff.mpr hThere] at hOutcome
    rw [hInsert]
    exact hOutcome
  · rw [hPointers, hNames, hPointer, hName] at hOutcome
    rw [hInsert]
    have hDistinct := ((SymbolTable.insert_eq_ok_iff
      hMirrors.distinct).mp hInsert).2
    exact ⟨_, hOutcome,
      hMirrors.append hPointer hName hDistinct⟩

theorem Mirrors.fails_iff
    (hMirrors : i.Mirrors t)
    (d : Decl)
    (e : CompileError) :
    Fails (SymbolIndex.insert d) i e ↔ t.insert d = .error e := by
  have hStep := hMirrors.insert d
  cases hInsert : t.insert d with
  | error e' =>
      rw [hInsert] at hStep
      rw [Fails, hStep, Except.error.injEq, Except.error.injEq]
  | ok t' =>
      rw [hInsert] at hStep
      rcases hStep with ⟨i', hYields, -⟩
      constructor
      · intro hFails
        exact absurd hYields (hFails.not_yields _)
      · intro hOther
        cases hOther

/- What is refused changes none of the containers. -/
theorem Mirrors.unchanged_of_fails
    {d : Decl}
    {e : CompileError}
    (hMirrors : i.Mirrors t)
    (hFails : Fails (SymbolIndex.insert d) i e) :
    (outcomeOf (SymbolIndex.insert d) i).2 = i := by
  have hStep := hMirrors.insert d
  rw [(hMirrors.fails_iff d e).mp hFails] at hStep
  exact congrArg Prod.snd hStep

/- What is entered is the last declaration of the table. -/
theorem Mirrors.entered
    {d : Decl}
    {i' : SymbolIndex}
    (hMirrors : i.Mirrors t)
    (hYields : Yields (SymbolIndex.insert d) i ⟨⟩ i') :
    t.insert d = .ok { decls := t.decls ++ [d] } ∧
      i'.Mirrors { decls := t.decls ++ [d] } := by
  have hStep := hMirrors.insert d
  cases hInsert : t.insert d with
  | error e =>
      have hFails := (hMirrors.fails_iff d e).mpr hInsert
      exact absurd hYields (hFails.not_yields _)
  | ok t' =>
      rw [hInsert] at hStep
      rcases hStep with ⟨i₁, hOther, hAfter⟩
      rcases (SymbolTable.insert_eq_ok_iff
        hMirrors.distinct).mp hInsert with ⟨rfl, -⟩
      rcases hOther.unique hYields with ⟨-, rfl⟩
      exact ⟨rfl, hAfter⟩

/- Refused or not, a declaration leaves both alike. -/
theorem Mirrors.enter
    (hMirrors : i.Mirrors t)
    (d : Decl) :
    (i.enter d).Mirrors (t.enter d) := by
  have hStep := hMirrors.insert d
  unfold SymbolTable.enter
  cases hInsert : t.insert d with
  | error e =>
      rw [hInsert] at hStep
      have hSame : i.enter d = i := congrArg Prod.snd hStep
      rw [hSame]
      exact hMirrors
  | ok t' =>
      rw [hInsert] at hStep
      rcases hStep with ⟨i', hEntered, hAfter⟩
      have hNext : i.enter d = i' := congrArg Prod.snd hEntered
      rw [hNext]
      exact hAfter

theorem Mirrors.foldl_enter
    (hMirrors : i.Mirrors t)
    (ds : List Decl) :
    (ds.foldl SymbolIndex.enter i).Mirrors
      (ds.foldl SymbolTable.enter t) := by
  induction ds generalizing i t with
  | nil => exact hMirrors
  | cons d ds ih => exact ih (hMirrors.enter d)

/- Whatever was entered, the containers hold what a table holds. -/
theorem mirrors_enterAll
    (ds : List Decl) :
    (enterAll ds).Mirrors (SymbolTable.enterAll ds) :=
  mirrors_empty.foldl_enter ds

/- Lookups in the containers are lookups in the table. -/
theorem Mirrors.named?_eq
    (hMirrors : i.Mirrors t)
    (q : QName) :
    i.named? q = t.named? q := by
  rw [SymbolIndex.named?, hMirrors.names]
  cases hName : t.named? q with
  | none => rfl
  | some d =>
      have hIn := ((SymbolTable.named?_eq_some_iff
        hMirrors.distinct).mp hName).1
      exact (hMirrors.pointers _).trans
        ((SymbolTable.get?_eq_some_iff hMirrors.distinct).mpr
          ⟨hIn, rfl⟩)

theorem Mirrors.decls_eq
    (hMirrors : i.Mirrors t) :
    i.decls = t.decls := by
  have hFound : ∀ d ∈ t.decls, i.get? d.pointer = some d :=
    fun d hIn => (hMirrors.pointers _).trans
      ((SymbolTable.get?_eq_some_iff hMirrors.distinct).mpr
        ⟨hIn, rfl⟩)
  rw [SymbolIndex.decls, hMirrors.order, List.filterMap_map]
  exact (List.filterMap_congr hFound).trans List.filterMap_some

end Mirroring

------------------------------------------------------------
-- Histories
------------------------------------------------------------

/-
  The containers describe the same declarations: each one is
  found by its own pointer and by its own name, no two share
  either, all stand in order, and a class is found by its
  simple name if that tells which one is meant.
-/
structure Describes
    (i : SymbolIndex)
    (ds : List Decl) : Prop where
  distinct : SymbolTable.Distinct ds
  decls : i.decls = ds
  order : i.order = ds.map Decl.pointer
  length : i.length = ds.length
  pointers : ∀ p d, i.get? p = some d ↔ d ∈ ds ∧ d.pointer = p
  index : ∀ q p, i.byName[q]? = some p ↔
    ∃ d ∈ ds, d.name = q ∧ d.pointer = p
  names : ∀ q d, i.named? q = some d ↔ d ∈ ds ∧ d.name = q
  classes : ∀ package simple c,
    i.classNamed? package simple = some c ↔
      .classType c ∈ ds ∧ c.name.simple = simple ∧
        (c.name.package = package ∨
          ∀ c', .classType c' ∈ ds →
            c'.name.simple = simple → c' = c)

theorem Mirrors.describes
    {i : SymbolIndex}
    {t : SymbolTable}
    (hMirrors : i.Mirrors t) :
    i.Describes t.decls where
  distinct := hMirrors.distinct
  decls := hMirrors.decls_eq
  order := hMirrors.order
  length := hMirrors.length
  pointers p d := by
    rw [SymbolIndex.get?, hMirrors.pointers]
    exact SymbolTable.get?_eq_some_iff hMirrors.distinct
  index q p := by
    rw [hMirrors.names, Option.map_eq_some_iff]
    simp only [SymbolTable.named?_eq_some_iff hMirrors.distinct,
      and_assoc]
  names q d := by
    rw [hMirrors.named?_eq]
    exact SymbolTable.named?_eq_some_iff hMirrors.distinct
  classes package simple c := by
    rw [SymbolIndex.classNamed?, hMirrors.decls_eq]
    exact SymbolTable.classNamed?_eq_some_iff hMirrors.distinct

/-
  After any declarations, refused or not, the three containers
  describe those that were entered, in the order of entering,
  and answer as the table does.  One more is refused exactly if
  its pointer or its name is there, with the error of the table
  and without any change; else it becomes the last one.
-/
theorem entered_consistent
    (history : List Decl) :
    let i := enterAll history
    let t := SymbolTable.enterAll history
    i.Describes t.decls ∧
      t.decls.Sublist history ∧
      (∀ p, i.get? p = t.get? p) ∧
      (∀ q, i.named? q = t.named? q) ∧
      (∀ package simple,
        i.classNamed? package simple =
          t.classNamed? package simple) ∧
      ∀ d,
        ((∃ e, Fails (SymbolIndex.insert d) i e) ↔
          ∃ d' ∈ t.decls,
            d'.pointer = d.pointer ∨ d'.name = d.name) ∧
        (∀ e, Fails (SymbolIndex.insert d) i e ↔
          t.insert d = .error e) ∧
        (∀ e, Fails (SymbolIndex.insert d) i e →
          (outcomeOf (SymbolIndex.insert d) i).2 = i) ∧
        ∀ i', Yields (SymbolIndex.insert d) i ⟨⟩ i' →
          t.insert d = .ok { decls := t.decls ++ [d] } ∧
            i'.Describes (t.decls ++ [d]) := by
  intro i t
  have hMirrors : i.Mirrors t := mirrors_enterAll history
  refine ⟨hMirrors.describes, SymbolTable.sublist_enterAll history,
    hMirrors.pointers, hMirrors.named?_eq, ?_, ?_⟩
  · intro package simple
    rw [SymbolIndex.classNamed?, hMirrors.decls_eq]
  · intro d
    refine ⟨?_, hMirrors.fails_iff d,
      fun e => hMirrors.unchanged_of_fails, ?_⟩
    · rw [← SymbolTable.insert_fails_iff]
      exact exists_congr (hMirrors.fails_iff d)
    · intro i' hYields
      have hEntered := hMirrors.entered hYields
      exact ⟨hEntered.1, hEntered.2.describes⟩

end SymbolIndex

end Stratagem

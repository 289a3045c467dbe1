import Stratagem.Proofs.ClassFile.Paths

/-
  The place of a class on disk.

  The name of a class is taken apart and put together again on
  its way into a file: slashes become points and slashes once
  more, and characters that a file cannot have are left out.
  For a legal name nothing of this shows.  The class keeps its
  name, and its file is where the name says.

  Key definitions include:
    * `PackageName.folders`
    * `CompiledClass.StoredAt`

  Main declarations:
    * `FileTree.exists_writeAt`
    * `CompiledClass.storedAt_of_isFor`
    * `CompiledClass.exists_stored_iff`
    * `QName.class_placed`
-/

namespace Stratagem

open Jvm

------------------------------------------------------------
-- Trees without Files
------------------------------------------------------------

namespace FileTree

variable {t t' : FileTree} {path : List String}

/- Folders can be made where there is nothing. -/
theorem exists_makeFoldersAt
    (hFits : ∀ name ∈ path, name.utf8ByteSize ≤ 255) :
    ∃ t, makeFoldersAt path [] = .ok t := by
  induction path with
  | nil => exact ⟨[], rfl⟩
  | cons name path ih =>
      rw [List.forall_mem_cons] at hFits
      rcases ih hFits.2 with ⟨inner, hInner⟩
      have hFound : find [] name = .ok none :=
        find_eq_ok.mpr ⟨hFits.1, rfl⟩
      refine ⟨set [] name (.folder inner), ?_⟩
      rw [makeFoldersAt, hFound]
      exact ok_bind.mpr ⟨none, rfl, ok_bind.mpr ⟨inner, hInner, rfl⟩⟩

/- And a file can be written into them. -/
theorem exists_writeAt
    {name : String}
    (bytes : Array UInt8)
    (hFits : ∀ name ∈ path, name.utf8ByteSize ≤ 255)
    (hLast : name.utf8ByteSize ≤ 255)
    (hMade : makeFoldersAt path [] = .ok t) :
    ∃ t', writeAt bytes (path ++ [name]) t = .ok t' := by
  induction path generalizing t with
  | nil =>
      cases hMade
      have hFound : find [] name = .ok none :=
        find_eq_ok.mpr ⟨hLast, rfl⟩
      refine ⟨set [] name (.file bytes), ?_⟩
      rw [List.nil_append, writeAt, hFound]
      rfl
  | cons own path ih =>
      rw [List.forall_mem_cons] at hFits
      rcases makeFoldersAt_cons hMade with
        ⟨entries, inner, hThere, hInner, rfl⟩
      have hEmpty : entries = [] := by
        rcases hThere with hFolder | ⟨-, rfl⟩
        · cases hFolder
        · rfl
      rw [hEmpty] at hInner
      rcases ih hFits.2 hInner with ⟨written, hWritten⟩
      have hFound : find (set [] own (.folder inner)) own =
          .ok (some (.folder inner)) :=
        find_eq_ok.mpr ⟨hFits.1, by rw [lookup_set, if_pos rfl]⟩
      refine ⟨set (set [] own (.folder inner)) own
        (.folder written), ?_⟩
      rw [List.cons_append, writeAt, hFound]
      · exact ok_bind.mpr
          ⟨_, rfl, ok_bind.mpr ⟨written, hWritten, rfl⟩⟩
      · simp

/- No name on the way to a file is too long. -/
theorem size_le_of_writeAt
    {bytes : Array UInt8}
    (hWritten : writeAt bytes path t = .ok t') :
    ∀ name ∈ path, name.utf8ByteSize ≤ 255 := by
  induction path generalizing t t' with
  | nil => nofun
  | cons own path ih =>
      rcases writeAt_cons hWritten with
        ⟨hFits, ⟨rfl, -, -⟩ | ⟨_, _, -, hInner, -⟩⟩
      · exact List.forall_mem_cons.mpr ⟨hFits, nofun⟩
      · exact List.forall_mem_cons.mpr ⟨hFits, ih hInner⟩

end FileTree

------------------------------------------------------------
-- Storing a Class
------------------------------------------------------------

/- The folders of a package, each in the one before. -/
def PackageName.folders
    (p : PackageName) : List String :=
  ((p.text.toList.splitOn '/').filter (!·.isEmpty)).map
    String.ofList

/- They are the segments of its name. -/
theorem PackageName.folders_spec
    (p : PackageName) :
    (∀ name ∈ p.folders, name ≠ "" ∧ '/' ∉ name.toList) ∧
      "/".intercalate p.folders = p.text := by
  refine ⟨?_, ?_⟩
  · intro name hIn
    rcases List.mem_map.mp hIn with ⟨part, hPart, rfl⟩
    rcases List.mem_filter.mp hPart with ⟨hPart, hSome⟩
    refine ⟨by simpa using hSome, ?_⟩
    rw [String.toList_ofList]
    exact fun hSlash => (mem_part hPart '/' hSlash).2 rfl
  · rw [← String.toList_inj, String.toList_intercalate, folders,
      List.map_map]
    have hSame : String.toList ∘ String.ofList = id :=
      funext fun cs => String.toList_ofList
    rw [hSame, List.map_id]
    exact p.intercalate_folders

namespace CompiledClass

/-
  Where a class is stored there is its file, and every other
  file is what it was.
-/
def StoredAt
    (c : CompiledClass)
    (place : List String)
    (t t' : FileTree) : Prop :=
  ∀ q found, t'.Holds q found ↔
    if q = place then found = c.bytes else t.Holds q found

variable {c : CompiledClass} {q : QName} {folder : String}
variable {root : List String} {t t' : FileTree}

/- The path that storing reports is the one that was taken. -/
theorem path_of_storeInPackage
    {path : String}
    (hStored : (c.storeInPackage folder :
      StateM FileTree (Except ClassFileError String)) t =
        (.ok path, t')) :
    path = c.path.foldl joinPath folder := by
  unfold storeInPackage at hStored
  dsimp only [Disk.makeFolders, Disk.write] at hStored
  rw [update_bind] at hStored
  split at hStored
  case h_2 => cases hStored
  case h_1 =>
      dsimp only at hStored
      rw [update_bind] at hStored
      split at hStored
      case h_2 => cases hStored
      case h_1 =>
          cases hStored
          rfl

theorem storedAt_of_isFor
    {path : String}
    (hFor : c.IsFor q)
    (hRoot : FileTree.components folder = .ok root)
    (hStored : (c.storeInPackage folder :
      StateM FileTree (Except ClassFileError String)) t =
        (.ok path, t')) :
    FileTree.components path = .ok (root ++ c.path) ∧
      c.StoredAt (root ++ c.path) t t' := by
  have hPlace :=
    components_foldl_joinPath hFor.isPlainName hRoot
  rw [path_of_storeInPackage hStored]
  refine ⟨hPlace, fun place found => ?_⟩
  rcases storeInPackage_eq_ok hStored with ⟨t₁, hParent, hWritten⟩
  rcases ok_bind.mp hParent with ⟨_, -, hParent⟩
  rcases ok_bind.mp hWritten with ⟨_, hThere, hWritten⟩
  rw [hPlace] at hThere
  cases hThere
  rw [FileTree.holds_writeAt hWritten,
    FileTree.holds_makeFoldersAt hParent]

/-
  Where there is no file yet, a class can be stored exactly if
  no name on its path is too long for a disk.  The last name
  is the file's, and all others are folders'.
-/
theorem exists_stored_iff
    (hFor : c.IsFor q)
    (hRoot : FileTree.components folder = .ok root) :
    (∃ path t', (c.storeInPackage folder :
      StateM FileTree (Except ClassFileError String)) [] =
        (.ok path, t')) ↔
      ∀ name ∈ root ++ c.path, name.utf8ByteSize ≤ 255 := by
  have hPlain := hFor.isPlainName
  have hPlace := components_foldl_joinPath hPlain hRoot
  constructor
  · rintro ⟨path, t', hStored⟩
    rcases storeInPackage_eq_ok hStored with ⟨t₁, -, hWritten⟩
    rcases ok_bind.mp hWritten with ⟨_, hThere, hWritten⟩
    rw [hPlace] at hThere
    cases hThere
    exact FileTree.size_le_of_writeAt hWritten
  · intro hFits
    rcases List.eq_nil_or_concat c.path with hNone | ⟨dirs, file, hPath⟩
    · rw [hFor.path_eq] at hNone
      simp at hNone
    · rw [List.concat_eq_append] at hPath
      rw [hPath] at hPlain hPlace hFits
      rw [← List.append_assoc, List.forall_mem_append,
        List.forall_mem_singleton] at hFits
      have hParent := components_foldl_joinPath
        (List.forall_mem_append.mp hPlain).1 hRoot
      rcases FileTree.exists_makeFoldersAt hFits.1 with ⟨t₁, hMade⟩
      rcases FileTree.exists_writeAt c.bytes hFits.1 hFits.2 hMade
        with ⟨t₂, hWritten⟩
      refine ⟨c.path.foldl joinPath folder, t₂, ?_⟩
      have hFolders : FileTree.makeFolders []
          (dirs.foldl joinPath folder) = .ok t₁ :=
        ok_bind.mpr ⟨_, hParent, hMade⟩
      have hFile : t₁.write ((dirs ++ [file]).foldl joinPath folder)
          c.bytes = .ok t₂ := by
        refine ok_bind.mpr ⟨_, hPlace, ?_⟩
        rw [← List.append_assoc]
        exact hWritten
      unfold storeInPackage
      dsimp only [Disk.makeFolders, Disk.write]
      rw [hPath, List.dropLast_concat, update_bind, hFolders]
      dsimp only
      rw [update_bind, hFile]
      rfl

/- The class of a strategy can always be named. -/
theorem exists_ofTy
    (decl : StrategyDecl)
    (bytes : Array UInt8) :
    ∃ c, ofTy (Context.strategyClass decl) bytes = .ok c ∧
      c.bytes = bytes :=
  ⟨_, rfl, rfl⟩

/- No character of its name is left out of its file's name. -/
theorem IsFor.name_chars
    (hFor : c.IsFor q) :
    ∀ ch ∈ c.name.toList, isFileChar ch = true ∧ ch ≠ '/' := by
  intro ch hIn
  rw [hFor.name, String.toList_append] at hIn
  have hPart : QName.isPart ch = true := q.mem_class (by simp) ch hIn
  exact ⟨isFileChar_of_isPart hPart,
    QName.ne_of_isPart hPart (by decide)⟩

end CompiledClass

------------------------------------------------------------
-- Names
------------------------------------------------------------

/-
  A package and a name that are accepted make the name of a
  strategy.  Its class can be made, has the name that its type
  has and no slash in its own name, and goes to a file that has
  this very name, in a folder for each segment of the package.
  Storing it writes this file and changes no other, and in an
  empty place fails only for names that are too long.  The
  class of another name goes elsewhere.
-/
theorem QName.class_placed
    {text simple : String}
    {p : PackageName}
    {q : QName}
    (hPackage : PackageName.ofText? text = some p)
    (hName : QName.ofText? p simple = some q)
    (decl : StrategyDecl)
    (hDecl : decl.name = q)
    (bytes : Array UInt8) :
    ∃ c, CompiledClass.ofTy (Context.strategyClass decl) bytes =
        .ok c ∧
      c.bytes = bytes ∧
      (Context.strategyClass decl).internalName =
        .ok c.internalName ∧
      (∀ ch ∈ c.name.toList,
        CompiledClass.isFileChar ch = true ∧ ch ≠ '/') ∧
      (∃ folders : List String,
        (∀ name ∈ folders, name ≠ "" ∧ '/' ∉ name.toList) ∧
        "/".intercalate folders = text ∧
        c.path = folders ++ [simple ++ "Strategy.class"]) ∧
      (∀ folder root, FileTree.components folder = .ok root →
        (∀ t path t', (c.storeInPackage folder :
            StateM FileTree (Except ClassFileError String)) t =
              (.ok path, t') →
          FileTree.components path = .ok (root ++ c.path) ∧
            c.StoredAt (root ++ c.path) t t') ∧
        ((∃ path t', (c.storeInPackage folder :
            StateM FileTree (Except ClassFileError String)) [] =
              (.ok path, t')) ↔
          ∀ name ∈ root ++ c.path, name.utf8ByteSize ≤ 255)) ∧
      ∀ other bytes' c',
        CompiledClass.ofTy (Context.strategyClass other) bytes' =
          .ok c' →
        c'.path = c.path → other.name = q := by
  have hText : p.text = text := by
    unfold PackageName.ofText? at hPackage
    split at hPackage
    · cases hPackage
      rfl
    · cases hPackage
  have hParts : q.package = p ∧ q.simple = simple := by
    unfold QName.ofText? at hName
    split at hName
    · cases hName
      exact ⟨rfl, rfl⟩
    · cases hName
  rcases CompiledClass.exists_ofTy decl bytes with ⟨c, hMade, hBytes⟩
  have hFor := CompiledClass.isFor_of_ofTy hMade
  rw [hDecl] at hFor
  refine ⟨c, hMade, hBytes, ?_, hFor.name_chars, ?_, ?_, ?_⟩
  · rw [hFor.internalName_eq, ← hDecl]
    simp [Context.strategyClass, Ty.ofClass, Ty.internalName,
      ClassTy.internalName, ClassTy.renderName]
  · rcases p.folders_spec with ⟨hSegments, hJoined⟩
    refine ⟨p.folders, hSegments, hJoined.trans hText, ?_⟩
    rw [hFor.path_eq, hParts.1, hParts.2, String.append_assoc]
    rfl
  · intro folder root hRoot
    exact ⟨fun t path t' hStored =>
      CompiledClass.storedAt_of_isFor hFor hRoot hStored,
      CompiledClass.exists_stored_iff hFor hRoot⟩
  · intro other bytes' c' hOther hSame
    exact (CompiledClass.isFor_of_ofTy hOther).path_inj hFor hSame

------------------------------------------------------------
-- A Sample
------------------------------------------------------------

theorem PackageName.isLegal_nested :
    isLegal "org/ex$" = true := by
  decide +kernel

theorem QName.isLegal_dollars : isLegal "$x_1" = true := by
  decide +kernel

/- A strategy with dollars in all its names. -/
def dollarStrategy : StrategyDecl :=
  { name := ⟨⟨"org/ex$", PackageName.isLegal_nested⟩, "$x_1",
      QName.isLegal_dollars⟩
    ty := { params := [], input := .base .long, output := .base .long }
    modifiers := []
    pointer := { resource := "p", index := 0 } }

/- Its class is stored below a folder of the working folder. -/
theorem dollarStrategy_placed :
    ∃ p q c path t',
      PackageName.ofText? "org/ex$" = some p ∧
      QName.ofText? p "$x_1" = some q ∧
      CompiledClass.ofTy (Context.strategyClass dollarStrategy) #[] =
        .ok c ∧
      (CompiledClass.storeInPackage "./out" c :
        StateM FileTree (Except ClassFileError String)) [] =
          (.ok path, t') ∧
      FileTree.components path =
        .ok ["out", "org", "ex$", "$x_1Strategy.class"] ∧
      t'.Holds ["out", "org", "ex$", "$x_1Strategy.class"] #[] := by
  have hPackage : PackageName.ofText? "org/ex$" =
      some dollarStrategy.name.package :=
    dif_pos PackageName.isLegal_nested
  have hName : QName.ofText? dollarStrategy.name.package "$x_1" =
      some dollarStrategy.name :=
    dif_pos QName.isLegal_dollars
  rcases QName.class_placed hPackage hName dollarStrategy rfl #[] with
    ⟨c, hMade, hBytes, -, -, -, hStore, -⟩
  have hPath : c.path = ["org", "ex$", "$x_1Strategy.class"] := by
    rw [(CompiledClass.isFor_of_ofTy hMade).path_eq]
    decide +kernel
  have hRoot : FileTree.components "./out" = .ok ["out"] := by
    decide +kernel
  rcases hStore "./out" ["out"] hRoot with ⟨hAll, hEmpty⟩
  rw [hPath] at hAll hEmpty
  rcases hEmpty.mpr (by decide +kernel) with ⟨path, t', hStored⟩
  rcases hAll [] path t' hStored with ⟨hPlace, hThere⟩
  have hBytesThere := (hThere (["out"] ++
    ["org", "ex$", "$x_1Strategy.class"]) #[]).mpr
    (by rw [if_pos rfl, hBytes])
  exact ⟨_, _, c, path, t', hPackage, hName, hMade, hStored, hPlace,
    hBytesThere⟩

end Stratagem

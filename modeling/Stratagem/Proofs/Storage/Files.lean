import Stratagem.Proofs.Steps
import Stratagem.Storage.Store

/-
  Which files there are after classes have been stored.

  Making folders changes no file, and writing a file changes
  no other.  So if all classes could be stored, then there is
  a file for each path that a class goes to, and where several
  go to one path it is the last of them that stays.

  Key definitions include:
    * `FileTree.Holds`
    * `IsPlainName`

  Main declarations:
    * `FileTree.holds_makeFoldersAt`
    * `FileTree.holds_writeAt`
    * `components_joinPath`
    * `CompiledClass.holds_store`
    * `holds_storeAll`
-/

namespace Stratagem

------------------------------------------------------------
-- Trees
------------------------------------------------------------

namespace FileTree

variable {t t' : FileTree} {name : String} {path : List String}

/- A file is on a path. -/
def Holds
    (t : FileTree)
    (path : List String)
    (bytes : Array UInt8) : Prop :=
  readAt path t = .ok bytes

/- A name that is looked up. -/
theorem find_eq_ok
    {node : Option FileNode} :
    t.find name = .ok node ↔
      name.utf8ByteSize ≤ 255 ∧ t.lookup name = node := by
  unfold find
  split
  case isTrue hLong => simp; omega
  case isFalse hFits => simp; omega

theorem lookup_cons
    (t : FileTree)
    (name other : String)
    (node : FileNode) :
    List.lookup other ((name, node) :: t) =
      if other = name then some node else t.lookup other := by
  rw [List.lookup_cons]
  by_cases hOther : other = name
  · simp [hOther]
  · simp [hOther, beq_eq_false_iff_ne.mpr hOther]

/- What is there is replaced, under its own name only. -/
theorem lookup_replaced
    (t : FileTree)
    (name other : String)
    (node : FileNode) :
    (t.map fun (n, x) => if n = name then (n, node) else (n, x)).lookup
        other =
      if other = name then (t.lookup name).map fun _ => node
      else t.lookup other := by
  induction t with
  | nil => simp
  | cons entry t ih =>
      rcases entry with ⟨n, x⟩
      rw [List.map_cons]
      dsimp only
      by_cases hOwn : n = name
      case pos =>
          subst hOwn
          rw [if_pos rfl, lookup_cons, lookup_cons, lookup_cons, ih]
          by_cases hOther : other = n <;> simp [hOther]
      case neg =>
          rw [if_neg hOwn, lookup_cons, lookup_cons, lookup_cons, ih]
          by_cases hOther : other = name
          · simp [hOther, Ne.symm hOwn]
          · simp [hOther]

theorem lookup_set
    (t : FileTree)
    (name other : String)
    (node : FileNode) :
    (t.set name node).lookup other =
      if other = name then some node else t.lookup other := by
  unfold set
  split
  case isTrue hThere =>
      rcases Option.isSome_iff_exists.mp hThere with ⟨x, hThere⟩
      rw [lookup_replaced, hThere]
      rfl
  case isFalse hNew =>
      rw [Option.not_isSome_iff_eq_none] at hNew
      rw [List.lookup_append, lookup_cons]
      by_cases hOther : other = name
      · subst hOther
        simp [hNew]
      · simp [hOther]

/- The first name of a path leads to a folder or to the file. -/
theorem holds_cons
    {bytes : Array UInt8} :
    t.Holds (name :: path) bytes ↔ name.utf8ByteSize ≤ 255 ∧
      ((∃ entries, t.lookup name = some (.folder entries) ∧
          Holds entries path bytes) ∨
        path = [] ∧ t.lookup name = some (.file bytes)) := by
  unfold Holds
  rw [readAt, ok_bind]
  simp only [find_eq_ok]
  constructor
  · rintro ⟨node, ⟨hFits, hFound⟩, hRead⟩
    refine ⟨hFits, ?_⟩
    split at hRead
    case h_1 => cases hRead
    case h_2 entries => exact .inl ⟨entries, hFound, hRead⟩
    case h_3 own =>
        split at hRead
        case isTrue hLast =>
            cases hRead
            exact .inr ⟨List.isEmpty_iff.mp hLast, hFound⟩
        case isFalse => cases hRead
  · rintro ⟨hFits, ⟨entries, hFound, hRead⟩ | ⟨rfl, hFound⟩⟩
    · exact ⟨_, ⟨hFits, hFound⟩, hRead⟩
    · exact ⟨_, ⟨hFits, hFound⟩, rfl⟩

theorem not_holds_nil
    {bytes : Array UInt8} :
    ¬ t.Holds [] bytes := by
  intro hHolds
  cases hHolds

theorem not_holds_empty
    {bytes : Array UInt8} :
    ¬ Holds [] path bytes := by
  cases path with
  | nil => exact not_holds_nil
  | cons name path => simp [holds_cons]

/- A folder on a path is there or is made. -/
theorem makeFoldersAt_cons
    (hMade : makeFoldersAt (name :: path) t = .ok t') :
    ∃ entries inner,
      (t.lookup name = some (.folder entries) ∨
        t.lookup name = none ∧ entries = []) ∧
      makeFoldersAt path entries = .ok inner ∧
      t' = t.set name (.folder inner) := by
  rw [makeFoldersAt, ok_bind] at hMade
  rcases hMade with ⟨node, hFound, hMade⟩
  rw [find_eq_ok] at hFound
  split at hMade
  case h_1 =>
      rcases ok_bind.mp hMade with ⟨inner, hInner, hSet⟩
      exact ⟨[], inner, .inr ⟨hFound.2, rfl⟩, hInner,
        (Except.ok.inj hSet).symm⟩
  case h_2 entries =>
      rcases ok_bind.mp hMade with ⟨inner, hInner, hSet⟩
      exact ⟨entries, inner, .inl hFound.2, hInner,
        (Except.ok.inj hSet).symm⟩
  case h_3 =>
      split at hMade <;> cases hMade

/- Making folders changes no file. -/
theorem holds_makeFoldersAt
    (hMade : makeFoldersAt path t = .ok t')
    (q : List String)
    (bytes : Array UInt8) :
    t'.Holds q bytes ↔ t.Holds q bytes := by
  induction path generalizing t t' q with
  | nil =>
      cases hMade
      rfl
  | cons name path ih =>
      rcases makeFoldersAt_cons hMade with
        ⟨entries, inner, hThere, hInner, rfl⟩
      cases q with
      | nil => simp only [not_holds_nil]
      | cons own q =>
          rw [holds_cons, holds_cons, lookup_set]
          by_cases hOwn : own = name
          case neg => rw [if_neg hOwn]
          case pos =>
              subst hOwn
              rcases hThere with hThere | ⟨hThere, rfl⟩
              · simp [hThere, ih hInner]
              · simp [hThere, ih hInner, not_holds_empty]

/- A file is written behind the folders of its path. -/
theorem writeAt_cons
    {bytes : Array UInt8}
    (hWritten : writeAt bytes (name :: path) t = .ok t') :
    name.utf8ByteSize ≤ 255 ∧
    (path = [] ∧ t' = t.set name (.file bytes) ∧
        (∀ entries, t.lookup name ≠ some (.folder entries)) ∨
      ∃ entries inner, t.lookup name = some (.folder entries) ∧
        writeAt bytes path entries = .ok inner ∧
        t' = t.set name (.folder inner)) := by
  cases path with
  | nil =>
      rw [writeAt, ok_bind] at hWritten
      rcases hWritten with ⟨node, hFound, hSet⟩
      rw [find_eq_ok] at hFound
      refine ⟨hFound.1, .inl ⟨rfl, ?_⟩⟩
      split at hSet
      case h_1 => cases hSet
      case h_2 hOther =>
          refine ⟨(Except.ok.inj hSet).symm, ?_⟩
          intro entries hFolder
          exact hOther entries (hFound.2.symm.trans hFolder)
  | cons next path =>
      rw [writeAt, ok_bind] at hWritten
      · rcases hWritten with ⟨node, hFound, hInside⟩
        rw [find_eq_ok] at hFound
        refine ⟨hFound.1, .inr ?_⟩
        split at hInside
        case h_1 => cases hInside
        case h_2 => cases hInside
        case h_3 entries =>
            rcases ok_bind.mp hInside with ⟨inner, hInner, hSet⟩
            exact ⟨entries, inner, hFound.2, hInner,
              (Except.ok.inj hSet).symm⟩
      · simp

/- Writing a file changes no other. -/
theorem holds_writeAt
    {bytes : Array UInt8}
    (hWritten : writeAt bytes path t = .ok t')
    (q : List String)
    (found : Array UInt8) :
    t'.Holds q found ↔
      if q = path then found = bytes else t.Holds q found := by
  induction path generalizing t t' q with
  | nil => cases hWritten
  | cons name path ih =>
      rcases writeAt_cons hWritten with ⟨hFits, hWays⟩
      cases q with
      | nil => simp [not_holds_nil]
      | cons own q =>
          rw [holds_cons, holds_cons]
          by_cases hOwn : own = name
          case neg =>
              rcases hWays with ⟨-, rfl, -⟩ | ⟨_, _, -, -, rfl⟩ <;>
                simp [lookup_set, hOwn]
          case pos =>
              subst hOwn
              rcases hWays with ⟨rfl, rfl, hNone⟩ |
                ⟨entries, inner, hThere, hInner, rfl⟩
              · have hBefore : ¬ ∃ entries,
                    t.lookup own = some (.folder entries) ∧
                      Holds entries q found :=
                  fun ⟨entries, hThere, _⟩ => hNone entries hThere
                simp only [lookup_set, if_true, hBefore]
                by_cases hLast : q = []
                · simp [hLast, hFits, eq_comm]
                · simp [hLast]
              · simp [lookup_set, hThere, ih hInner, hFits]

end FileTree

------------------------------------------------------------
-- Paths
------------------------------------------------------------

/- A name that leads neither nowhere nor back. -/
structure IsPlainName
    (name : String) : Prop where
  noSlash : '/' ∉ name.toList
  noZero : '\x00' ∉ name.toList
  some : name ≠ ""
  notHere : name ≠ "."
  notBack : name ≠ ".."

theorem IsPlainName.step
    {name : String}
    (hPlain : IsPlainName name)
    (before : List String) :
    FileTree.step before name = name :: before := by
  unfold FileTree.step
  split
  case h_1 => exact absurd rfl hPlain.some
  case h_2 => exact absurd rfl hPlain.notHere
  case h_3 => exact absurd rfl hPlain.notBack
  case h_4 => rfl

/- Where the names of a path lead, the last name first. -/
def walk
    (cs : List Char) : List String :=
  ((cs.splitOn '/').map String.ofList).foldl FileTree.step []

theorem walk_append
    (front : List Char)
    {last : List Char}
    (hLast : '/' ∉ last) :
    walk (front ++ '/' :: last) =
      FileTree.step (walk front) (String.ofList last) := by
  unfold walk
  rw [List.splitOn_append_cons_self, List.splitOn_eq_singleton hLast]
  simp

theorem components_eq_ok
    {path : String}
    {names : List String} :
    FileTree.components path = .ok names ↔
      '\x00' ∉ path.toList ∧ names = (walk path.toList).reverse := by
  unfold FileTree.components walk
  split
  case isTrue hZero =>
      rw [List.contains_iff_mem] at hZero
      simp [hZero]
  case isFalse hNone =>
      rw [List.contains_iff_mem] at hNone
      simp [hNone, eq_comm]

/- A name that is joined to a path is behind a slash. -/
theorem walk_joinPath
    {path name : String}
    (hPlain : IsPlainName name) :
    walk (joinPath path name).toList = name :: walk path.toList := by
  rw [← hPlain.step (walk path.toList)]
  unfold joinPath
  split
  case isTrue hEnd =>
      rw [Bool.or_eq_true, String.endsWith_char_eq_getLast?,
        beq_iff_eq] at hEnd
      rw [String.toList_append]
      rcases hEnd with hEmpty | hSlash
      · rw [String.isEmpty_iff] at hEmpty
        unfold walk
        rw [hEmpty, String.toList_empty, List.nil_append,
          List.splitOn_eq_singleton hPlain.noSlash]
        simp [FileTree.step]
      · rcases List.getLast?_eq_some_iff.mp hSlash with ⟨front, hFront⟩
        rw [hFront, List.append_assoc, List.singleton_append,
          walk_append front hPlain.noSlash, walk_append front (by simp)]
        simp [FileTree.step]
  case isFalse =>
      rw [String.toList_append, String.toList_append,
        List.append_assoc]
      have hJoined := walk_append path.toList hPlain.noSlash
      rwa [String.ofList_toList] at hJoined

/- A name that is joined to a path is its last component. -/
theorem components_joinPath
    {path name : String}
    {names : List String}
    (hPlain : IsPlainName name)
    (hPath : FileTree.components path = .ok names) :
    FileTree.components (joinPath path name) =
      .ok (names ++ [name]) := by
  rw [components_eq_ok] at hPath ⊢
  rcases hPath with ⟨hZero, rfl⟩
  refine ⟨?_, ?_⟩
  · unfold joinPath
    split <;> simp [hZero, hPlain.noZero]
  · rw [walk_joinPath hPlain, List.reverse_cons]

theorem components_foldl_joinPath
    {path : String}
    {names more : List String}
    (hPlain : ∀ name ∈ more, IsPlainName name)
    (hPath : FileTree.components path = .ok names) :
    FileTree.components (more.foldl joinPath path) =
      .ok (names ++ more) := by
  induction more generalizing path names with
  | nil => simpa using hPath
  | cons name more ih =>
      rw [List.forall_mem_cons] at hPlain
      rw [List.foldl_cons,
        ih hPlain.2 (components_joinPath hPlain.1 hPath)]
      simp

------------------------------------------------------------
-- Classes
------------------------------------------------------------

theorem run_bind
    {σ α β : Type}
    (x : StateM σ α)
    (next : α → StateM σ β)
    (s : σ) :
    (x >>= next) s = next (x s).1 (x s).2 :=
  rfl

/- A change of the tree, and what is done behind it. -/
theorem update_bind
    {α : Type}
    (change : FileTree → Except IoError FileTree)
    (next : Except IoError Unit → StateM FileTree α)
    (t : FileTree) :
    (FileTree.update change >>= next) t =
      match change t with
      | .ok t₁ => next (.ok ()) t₁
      | .error e => next (.error e) t := by
  have hRun : FileTree.update change t =
      match change t with
      | .ok t₁ => (.ok (), t₁)
      | .error e => (.error e, t) := rfl
  rw [run_bind, hRun]
  cases change t with
  | error e => rfl
  | ok t₁ => rfl

namespace CompiledClass

variable {c : CompiledClass} {folder : String} {t t' : FileTree}

/- A class is stored if its folders and its file are made. -/
theorem storeInPackage_eq_ok
    {path : String}
    (hStored : (c.storeInPackage folder :
      StateM FileTree (Except ClassFileError String)) t =
        (.ok path, t')) :
    ∃ t₁,
      t.makeFolders (c.path.dropLast.foldl joinPath folder) =
        .ok t₁ ∧
      t₁.write (c.path.foldl joinPath folder) c.bytes = .ok t' := by
  unfold storeInPackage at hStored
  dsimp only [Disk.makeFolders, Disk.write] at hStored
  rw [update_bind] at hStored
  split at hStored
  case h_2 => cases hStored
  case h_1 t₁ hMade =>
      dsimp only at hStored
      rw [update_bind] at hStored
      split at hStored
      case h_2 => cases hStored
      case h_1 t₂ hWritten =>
          cases hStored
          exact ⟨t₁, hMade, hWritten⟩

theorem store_eq_ok
    (hStored : (c.store folder :
      StateM FileTree (Except CompileError Unit)) t = (.ok (), t')) :
    ∃ t₁ path, t.makeFolders folder = .ok t₁ ∧
      (c.storeInPackage folder :
        StateM FileTree (Except ClassFileError String)) t₁ =
          (.ok path, t') := by
  unfold store at hStored
  dsimp only [Disk.makeFolders] at hStored
  rw [update_bind] at hStored
  split at hStored
  case h_2 => cases hStored
  case h_1 t₁ hMade =>
      refine ⟨t₁, ?_⟩
      dsimp only at hStored
      rw [run_bind] at hStored
      rcases hInside : (c.storeInPackage folder :
        StateM FileTree (Except ClassFileError String)) t₁ with
        ⟨result, t₂⟩
      rw [hInside] at hStored
      cases result with
      | error e => cases hStored
      | ok path =>
          cases hStored
          exact ⟨path, hMade, rfl⟩

/-
  Once a class is stored its file is there, below the folder,
  and every other file is what it was.
-/
theorem holds_store
    (hPlain : ∀ name ∈ c.path, IsPlainName name)
    (hStored : (c.store folder :
      StateM FileTree (Except CompileError Unit)) t = (.ok (), t')) :
    ∃ root, FileTree.components folder = .ok root ∧
      ∀ q found, t'.Holds q found ↔
        if q = root ++ c.path then found = c.bytes
        else t.Holds q found := by
  rcases store_eq_ok hStored with ⟨t₁, path, hFolder, hStored⟩
  rcases storeInPackage_eq_ok hStored with ⟨t₂, hParent, hWritten⟩
  rcases ok_bind.mp hFolder with ⟨root, hRoot, hFolder⟩
  rcases ok_bind.mp hParent with ⟨names, -, hParent⟩
  rcases ok_bind.mp hWritten with ⟨place, hPlace, hWritten⟩
  rw [components_foldl_joinPath hPlain hRoot] at hPlace
  cases hPlace
  refine ⟨root, hRoot, ?_⟩
  intro q found
  rw [FileTree.holds_writeAt hWritten,
    FileTree.holds_makeFoldersAt hParent,
    FileTree.holds_makeFoldersAt hFolder]

end CompiledClass

/- The last of some classes that go to a path. -/
def lastAt
    (root : List String)
    (classes : List CompiledClass)
    (q : List String) : Option CompiledClass :=
  classes.reverse.find? fun c => root ++ c.path = q

theorem lastAt_cons
    (root : List String)
    (c : CompiledClass)
    (classes : List CompiledClass)
    (q : List String) :
    lastAt root (c :: classes) q =
      (lastAt root classes q).or
        (if root ++ c.path = q then some c else none) := by
  unfold lastAt
  rw [List.reverse_cons, List.find?_append]
  by_cases hPath : root ++ c.path = q <;> simp [hPath]

section Stored

variable {folder : String} {classes : List CompiledClass}
  {t t' : FileTree} {error : Option CompileError} {o : Outcome}

theorem storeAll_cons
    {c : CompiledClass}
    (hStored : (storeAll folder error (c :: classes) :
      StateM FileTree Outcome) t = (o, t'))
    (hDone : o.error = none) :
    ∃ t₁ o', (c.store folder :
        StateM FileTree (Except CompileError Unit)) t =
          (.ok (), t₁) ∧
      (storeAll folder error classes : StateM FileTree Outcome) t₁ =
        (o', t') ∧ o'.error = none := by
  unfold storeAll at hStored
  rw [run_bind] at hStored
  rcases hFirst : (c.store folder :
    StateM FileTree (Except CompileError Unit)) t with ⟨result, t₁⟩
  rw [hFirst] at hStored
  cases result with
  | error e =>
      cases hStored
      cases hDone
  | ok _ =>
      dsimp only at hStored
      rw [run_bind] at hStored
      cases hStored
      exact ⟨t₁, _, rfl, rfl, hDone⟩

/-
  Once all classes are stored, each file is that of the last
  class that goes to its path, or what it was.
-/
theorem holds_storeAll
    {root : List String}
    (hPlain : ∀ c ∈ classes, ∀ name ∈ c.path, IsPlainName name)
    (hRoot : FileTree.components folder = .ok root)
    (hStored : (storeAll folder error classes :
      StateM FileTree Outcome) t = (o, t'))
    (hDone : o.error = none)
    (q : List String)
    (found : Array UInt8) :
    t'.Holds q found ↔
      match lastAt root classes q with
      | some c => found = c.bytes
      | none => t.Holds q found := by
  induction classes generalizing t o with
  | nil =>
      cases hStored
      rfl
  | cons c classes ih =>
      rw [List.forall_mem_cons] at hPlain
      rcases storeAll_cons hStored hDone with
        ⟨t₁, o', hFirst, hRest, hDone⟩
      rcases CompiledClass.holds_store hPlain.1 hFirst with
        ⟨place, hPlace, hHolds⟩
      rw [hRoot] at hPlace
      cases hPlace
      rw [ih hPlain.2 hRest hDone, lastAt_cons]
      cases lastAt root classes q with
      | some d => rfl
      | none =>
          rw [Option.none_or, hHolds]
          by_cases hPath : q = root ++ c.path
          · simp [hPath]
          · simp [hPath, Ne.symm hPath]

end Stored

end Stratagem

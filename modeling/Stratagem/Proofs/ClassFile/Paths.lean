import Stratagem.Proofs.Program.ClassNames
import Stratagem.Proofs.Storage.Files

/-
  Where the classes of strategies go.

  The class of a strategy is named for it, and the path of its
  file has a folder for each segment of the package.  No
  character of a name is lost on the way, so different
  strategies have different files.

  Key definitions include:
    * `CompiledClass.IsFor`

  Main declarations:
    * `CompiledClass.isFor_of_ofTy`
    * `CompiledClass.IsFor.internalName_inj`
    * `CompiledClass.IsFor.isPlainName`
    * `CompiledClass.IsFor.path_inj`
-/

namespace Stratagem

open Jvm

------------------------------------------------------------
-- Names of Compiled Classes
------------------------------------------------------------

namespace CompiledClass

/- A class goes by a name. -/
structure IsFor
    (c : CompiledClass)
    (q : QName) : Prop where
  name : c.name = q.simple ++ "Strategy"
  package : c.package = q.package.text

theorem IsFor.internalName_eq
    {c : CompiledClass}
    {q : QName}
    (hFor : c.IsFor q) :
    c.internalName = q.internalName "Strategy" := by
  unfold internalName QName.internalName PackageName.isRoot
  rw [hFor.name, hFor.package]
  simp only [String.append_assoc]

end CompiledClass

namespace QName

theorem ne_of_isPart
    {c d : Char}
    (hPart : isPart c = true)
    (hNot : isPart d = false) :
    c ≠ d := by
  rintro rfl
  rw [hPart] at hNot
  cases hNot

theorem dotted_class
    {cs : List Char}
    (hParts : ∀ c ∈ cs, isPart c = true) :
    dotted cs = cs := by
  unfold dotted
  conv_rhs => rw [← List.map_id cs]
  apply List.map_congr_left
  intro c hIn
  exact if_neg (ne_of_isPart (hParts c hIn) (by decide))

/- Points for slashes, and slashes for points again. -/
theorem undotted_package
    (p : PackageName) :
    (dotted p.text.toList).map
      (fun c => if c = '.' then '/' else c) = p.text.toList := by
  unfold dotted
  rw [List.map_map]
  conv_rhs => rw [← List.map_id p.text.toList]
  apply List.map_congr_left
  intro c hIn
  rcases p.mem_text c hIn with hPart | rfl
  · have hSlash : c ≠ '/' := ne_of_isPart hPart (by decide)
    have hPoint : c ≠ '.' := ne_of_isPart hPart (by decide)
    simp [hSlash, hPoint]
  · rfl

/- The name of a class with points in it. -/
theorem dotted_internalName
    (q : QName)
    {suffix : String}
    (hSuffix : suffix ∈ ["", "Strategy"]) :
    dotted (q.internalName suffix).toList =
      (if (dotted q.package.text.toList).isEmpty then []
        else dotted q.package.text.toList ++ ['.']) ++
        (q.simple ++ suffix).toList := by
  have hClass := dotted_class (q.mem_class hSuffix)
  have hRoot : (dotted q.package.text.toList).isEmpty =
      q.package.isRoot := by
    rw [Bool.eq_iff_iff]
    simp [dotted, PackageName.isRoot, String.isEmpty_iff]
  rw [toList_internalName, String.toList_append, hRoot]
  unfold dotted at hClass ⊢
  rw [List.map_append, hClass]
  unfold qualifier
  split <;> simp

end QName

namespace CompiledClass

/- A point parts the package of a class from its name. -/
theorem ofTy_eq
    {t : Ty}
    {package name : List Char}
    (bytes : Array UInt8)
    (hPath : t.classPath = .ok (String.ofList
      ((if package.isEmpty then [] else package ++ ['.']) ++ name)))
    (hName : '.' ∉ name) :
    ofTy t bytes = .ok {
      name := String.ofList name
      package := String.ofList (package.map fun c =>
        if c = '.' then '/' else c)
      bytes } := by
  have hGoes : ∀ c ∈ name.reverse, (c != '.') = true := by
    intro c hIn
    rw [List.mem_reverse] at hIn
    exact bne_iff_ne.mpr fun hPoint => hName (hPoint ▸ hIn)
  unfold ofTy
  rw [hPath]
  dsimp only
  rw [String.toList_ofList, List.reverse_append,
    List.takeWhile_append_of_pos hGoes,
    List.dropWhile_append_of_pos hGoes]
  cases package with
  | nil => simp
  | cons c package => simp

/- The class made for a declared strategy goes by its name. -/
theorem isFor_of_ofTy
    {decl : StrategyDecl}
    {bytes : Array UInt8}
    {c : CompiledClass}
    (hMade : ofTy (Context.strategyClass decl) bytes = .ok c) :
    c.IsFor decl.name := by
  have hClass : ∀ c ∈ decl.name.simple.toList ++ "Strategy".toList,
      QName.isPart c = true :=
    decl.name.mem_class (by simp)
  have hPath : (Context.strategyClass decl).classPath =
      .ok (String.ofList
        (dotted (decl.name.internalName "Strategy").toList)) := by
    simp [Context.strategyClass, Ty.ofClass, Ty.classPath,
      ClassTy.classPath, ClassTy.setArgs, ClassTy.display,
      ClassTy.render, renderShownArgs]
  rw [decl.name.dotted_internalName (by simp)] at hPath
  have hNone : '.' ∉ (decl.name.simple ++ "Strategy").toList := by
    rw [String.toList_append]
    exact fun hIn => absurd (hClass '.' hIn) (by decide)
  rw [ofTy_eq bytes hPath hNone] at hMade
  rw [← Except.ok.inj hMade]
  refine ⟨?_, ?_⟩
  · simp
  · simp only [QName.undotted_package, String.ofList_toList]

end CompiledClass

------------------------------------------------------------
-- Files of Compiled Classes
------------------------------------------------------------

namespace PackageName

/-
  Legal packages have no empty segments.  A character that is
  not a slash goes on with the first of them.
-/
theorem parts_of_isSegments
    {fresh : Bool}
    {cs : List Char}
    (hLegal : isSegments fresh cs = true) :
    (∀ part ∈ (cs.splitOn '/').tail, part ≠ []) ∧
      (fresh = true → ∀ part ∈ cs.splitOn '/', part ≠ []) := by
  induction cs generalizing fresh with
  | nil =>
      simp only [isSegments, Bool.not_eq_true'] at hLegal
      simp [hLegal]
  | cons c cs ih =>
      rw [List.splitOn_cons_eq_if_modifyHead]
      have hGoes : c ≠ '/' → isSegments false cs = true →
          (∀ part ∈ (if (c == '/') = true then
              [] :: cs.splitOn '/'
            else (cs.splitOn '/').modifyHead (c :: ·)),
            part ≠ []) := by
        intro hOther hRest
        rw [if_neg (by simpa using hOther)]
        cases hParts : cs.splitOn '/' with
        | nil => simp
        | cons first more =>
            have hTail := (ih hRest).1
            rw [hParts] at hTail
            simpa using hTail
      unfold isSegments at hLegal
      split at hLegal
      case isTrue =>
          rw [Bool.and_eq_true] at hLegal
          have hAll := hGoes ?_ hLegal.2
          · exact ⟨fun part hIn => hAll part (List.mem_of_mem_tail hIn),
              fun _ => hAll⟩
          · rintro rfl
            exact absurd hLegal.1 (by decide)
      case isFalse hStarted =>
          refine ⟨?_, fun hFresh => absurd hFresh hStarted⟩
          split at hLegal
          case isTrue hSlash =>
              rw [if_pos (by simpa using hSlash)]
              exact (ih hLegal).2 rfl
          case isFalse hOther =>
              rw [Bool.and_eq_true] at hLegal
              intro part hIn
              exact hGoes hOther hLegal.2 part
                (List.mem_of_mem_tail hIn)

theorem mem_part
    {cs part : List Char}
    (hPart : part ∈ cs.splitOn '/') :
    ∀ c ∈ part, c ∈ cs ∧ c ≠ '/' := by
  induction cs generalizing part with
  | nil => simp_all
  | cons d cs ih =>
      rw [List.splitOn_cons_eq_if_modifyHead] at hPart
      intro c hIn
      by_cases hSlash : d = '/'
      case pos =>
          rw [if_pos (by simpa using hSlash), List.mem_cons] at hPart
          rcases hPart with rfl | hPart
          · cases hIn
          · have hLater := ih hPart c hIn
            exact ⟨List.mem_cons_of_mem d hLater.1, hLater.2⟩
      case neg =>
          rw [if_neg (by simpa using hSlash)] at hPart
          cases hParts : cs.splitOn '/' with
          | nil => exact absurd hParts (List.splitOn_ne_nil _ _)
          | cons first more =>
              rw [hParts] at hPart ih
              simp only [List.modifyHead_cons, List.mem_cons] at hPart
              rcases hPart with rfl | hPart
              · rcases List.mem_cons.mp hIn with rfl | hIn
                · exact ⟨List.mem_cons_self, hSlash⟩
                · have hLater := ih List.mem_cons_self c hIn
                  exact ⟨List.mem_cons_of_mem d hLater.1, hLater.2⟩
              · have hLater := ih (List.mem_cons_of_mem first hPart)
                  c hIn
                exact ⟨List.mem_cons_of_mem d hLater.1, hLater.2⟩

/- No segment of a package is left out of its folders. -/
theorem filter_parts
    {p : PackageName}
    (hSome : p.text.toList ≠ []) :
    (p.text.toList.splitOn '/').filter (!·.isEmpty) =
      p.text.toList.splitOn '/' := by
  have hLegal := p.legal
  rw [isLegal, Bool.or_eq_true] at hLegal
  rcases hLegal with hRoot | hSegments
  · rw [String.isEmpty_iff] at hRoot
    simp [hRoot] at hSome
  · rw [List.filter_eq_self]
    intro part hIn
    have hPart := (parts_of_isSegments hSegments).2 rfl part hIn
    simpa using hPart

/- Its folders, one in another, are what it is called. -/
theorem intercalate_folders
    (p : PackageName) :
    ['/'].intercalate
      ((p.text.toList.splitOn '/').filter (!·.isEmpty)) =
        p.text.toList := by
  by_cases hRoot : p.text.toList = []
  · rw [hRoot]
    rfl
  · rw [filter_parts hRoot, List.intercalate_splitOn]

/- The folders of a package tell which package it is. -/
theorem folders_injective
    {p q : PackageName}
    (hSame : (p.text.toList.splitOn '/').filter (!·.isEmpty) =
      (q.text.toList.splitOn '/').filter (!·.isEmpty)) :
    p = q := by
  apply PackageName.ext
  rw [← String.toList_inj, ← p.intercalate_folders, hSame,
    q.intercalate_folders]

end PackageName

namespace CompiledClass

/- What a name is made of, a file's name can have. -/
theorem isFileChar_of_isPart
    {c : Char}
    (hPart : QName.isPart c = true) :
    isFileChar c = true := by
  simp only [QName.isPart, QName.isStart, isFileChar,
    Char.isAlphanum, Bool.or_eq_true] at hPart ⊢
  rcases hPart with ((hAlpha | hScore) | hDollar) | hDigit
  · exact .inl (.inl (.inl hAlpha))
  · exact .inl (.inr hScore)
  · exact .inr hDollar
  · exact .inl (.inl (.inr hDigit))

theorem IsFor.path_eq
    {c : CompiledClass}
    {q : QName}
    (hFor : c.IsFor q) :
    c.path =
      ((q.package.text.toList.splitOn '/').filter
        (!·.isEmpty)).map String.ofList ++
        [q.simple ++ "Strategy" ++ ".class"] := by
  have hKept : (q.simple ++ "Strategy").toList.filter isFileChar =
      (q.simple ++ "Strategy").toList := by
    rw [List.filter_eq_self, String.toList_append]
    intro c hIn
    exact isFileChar_of_isPart (q.mem_class (by simp) c hIn)
  unfold path
  rw [hFor.name, hFor.package, hKept, String.ofList_toList]

/- Names of folders, and of files with what is put behind. -/
theorem isPlainName_of_isPart
    {cs : List Char}
    {ending : String}
    (hParts : ∀ c ∈ cs, QName.isPart c = true)
    (hSome : cs ≠ [])
    (hEnding : ending ∈ ["", ".class"]) :
    IsPlainName (String.ofList cs ++ ending) := by
  have hNot : ∀ d, QName.isPart d = false → d ∉ ending.toList →
      d ∉ (String.ofList cs ++ ending).toList := by
    intro d hOther hBehind hIn
    rw [String.toList_append, String.toList_ofList,
      List.mem_append] at hIn
    rcases hIn with hIn | hIn
    · exact QName.ne_of_isPart (hParts d hIn) hOther rfl
    · exact hBehind hIn
  have hFirst : ∀ text : String,
      text.toList.any QName.isPart = false →
        String.ofList cs ++ ending ≠ text := by
    rintro text hOther rfl
    rcases List.exists_mem_of_ne_nil cs hSome with ⟨c, hIn⟩
    exact List.any_eq_false.mp hOther c (by simp [hIn])
      (hParts c hIn)
  simp only [List.mem_cons, List.not_mem_nil, or_false] at hEnding
  refine ⟨hNot '/' rfl ?_, hNot '\x00' rfl ?_, hFirst "" (by simp),
    hFirst "." (by decide +kernel), hFirst ".." (by decide +kernel)⟩
  · rcases hEnding with rfl | rfl <;> decide +kernel
  · rcases hEnding with rfl | rfl <;> decide +kernel

theorem IsFor.isPlainName
    {c : CompiledClass}
    {q : QName}
    (hFor : c.IsFor q) :
    ∀ name ∈ c.path, IsPlainName name := by
  rw [hFor.path_eq, List.forall_mem_append,
    List.forall_mem_singleton]
  constructor
  · intro name hIn
    rcases List.mem_map.mp hIn with ⟨part, hPart, rfl⟩
    rcases List.mem_filter.mp hPart with ⟨hPart, hSome⟩
    have hChars : ∀ c ∈ part, QName.isPart c = true := by
      intro c hIn
      rcases PackageName.mem_part hPart c hIn with ⟨hText, hOther⟩
      exact (q.package.mem_text c hText).resolve_right hOther
    have hPlain : IsPlainName (String.ofList part ++ "") :=
      isPlainName_of_isPart hChars (by simpa using hSome) (by simp)
    simpa using hPlain
  · have hChars : ∀ c ∈ (q.simple ++ "Strategy").toList,
        QName.isPart c = true := by
      rw [String.toList_append]
      exact q.mem_class (by simp)
    have hPlain : IsPlainName (String.ofList
        (q.simple ++ "Strategy").toList ++ ".class") :=
      isPlainName_of_isPart hChars (by simp) (by simp)
    rwa [String.ofList_toList] at hPlain

/- Classes in one file go by one name. -/
theorem IsFor.path_inj
    {c d : CompiledClass}
    {q r : QName}
    (hFor : c.IsFor q)
    (hOther : d.IsFor r)
    (hSame : c.path = d.path) :
    q = r := by
  rw [hFor.path_eq, hOther.path_eq, List.append_singleton_inj] at hSame
  have hPackage : q.package = r.package :=
    PackageName.folders_injective
      (List.map_injective_iff.mpr (fun _ _ => String.ofList_inj.mp)
        hSame.1)
  have hSimple : q.simple = r.simple := by
    have hFile := hSame.2
    rw [← String.toList_inj] at hFile
    simpa [String.toList_inj] using hFile
  exact QName.ext hPackage hSimple

/- Classes with one name go by one name. -/
theorem IsFor.internalName_inj
    {c d : CompiledClass}
    {q r : QName}
    (hFor : c.IsFor q)
    (hOther : d.IsFor r)
    (hSame : c.internalName = d.internalName) :
    q = r := by
  rw [hFor.internalName_eq, hOther.internalName_eq] at hSame
  exact QName.internalName_injective (by simp) hSame

end CompiledClass

end Stratagem

import Stratagem.Proofs.Jvm.Fidelity
import Stratagem.Proofs.Lowering.Names

/-
  Classes that are made for legal names.

  A dollar sign may stand anywhere in a legal name, but in a
  descriptor it parts the names of nested classes.  So the
  descriptor of a class is read exactly if there is something
  before, behind and between the dollar signs of its name.

  Key definitions include:
    * `DollarsApart`

  Main declarations:
    * `QName.internalName_injective`
    * `Jvm.acceptsName_iff`
    * `QName.descriptor_accepted_iff`
    * `namesAccepted_iff`
-/

namespace Stratagem

open Jvm

------------------------------------------------------------
-- Characters of Names
------------------------------------------------------------

attribute [ext] PackageName QName

theorem PackageName.mem_of_isSegments
    {fresh : Bool}
    {cs : List Char}
    (hLegal : isSegments fresh cs = true) :
    ∀ c ∈ cs, isPart c = true ∨ c = '/' := by
  induction cs generalizing fresh with
  | nil => simp
  | cons d cs ih =>
      rw [List.forall_mem_cons]
      unfold isSegments at hLegal
      split at hLegal
      case isTrue =>
          rw [Bool.and_eq_true] at hLegal
          refine ⟨.inl ?_, ih hLegal.2⟩
          rw [isPart, hLegal.1, Bool.true_or]
      case isFalse =>
          split at hLegal
          case isTrue hSlash => exact ⟨.inr hSlash, ih hLegal⟩
          case isFalse =>
              rw [Bool.and_eq_true] at hLegal
              exact ⟨.inl hLegal.1, ih hLegal.2⟩

theorem QName.isPart_of_packagePart
    {c : Char}
    (hPart : PackageName.isPart c = true) :
    isPart c = true := by
  simp only [PackageName.isPart, PackageName.isStart, isPart,
    isStart, Bool.or_eq_true] at hPart ⊢
  rcases hPart with ((hLower | hScore) | hDollar) | hDigit
  · have hAlpha : c.isAlpha = true :=
      (Bool.or_eq_true _ _).mpr (.inr hLower)
    exact .inl (.inl (.inl hAlpha))
  · exact .inl (.inl (.inr hScore))
  · exact .inl (.inr hDollar)
  · exact .inr hDigit

/- A package has the characters of simple names, and slashes. -/
theorem PackageName.mem_text
    (p : PackageName) :
    ∀ c ∈ p.text.toList, QName.isPart c = true ∨ c = '/' := by
  intro c hIn
  have hLegal := p.legal
  rw [isLegal, Bool.or_eq_true] at hLegal
  rcases hLegal with hRoot | hSegments
  · rw [String.isEmpty_iff] at hRoot
    simp [hRoot] at hIn
  · rcases mem_of_isSegments hSegments c hIn with hPart | hSlash
    · exact .inl (QName.isPart_of_packagePart hPart)
    · exact .inr hSlash

namespace QName

theorem mem_simple
    (q : QName) :
    ∀ c ∈ q.simple.toList, isPart c = true := by
  have hLegal := q.legal
  unfold isLegal at hLegal
  cases hName : q.simple.toList with
  | nil => simp
  | cons c cs =>
      rw [hName, isSimple, Bool.and_eq_true, List.all_eq_true]
        at hLegal
      refine List.forall_mem_cons.mpr ⟨?_, hLegal.2⟩
      rw [isPart, hLegal.1, Bool.true_or]

variable {suffix : String}

/- What is put behind a name to make the name of its class. -/
theorem mem_suffix
    (hSuffix : suffix ∈ ["", "Strategy"]) :
    ∀ c ∈ suffix.toList, isPart c = true := by
  simp only [List.mem_cons, List.not_mem_nil, or_false] at hSuffix
  rw [← List.all_eq_true]
  rcases hSuffix with rfl | rfl <;> decide +kernel

/- What stands before the simple part of a class name. -/
def qualifier
    (q : QName) : List Char :=
  if q.package.isRoot then [] else q.package.text.toList ++ ['/']

theorem toList_internalName
    (q : QName)
    (suffix : String) :
    (q.internalName suffix).toList =
      q.qualifier ++ (q.simple.toList ++ suffix.toList) := by
  unfold internalName qualifier
  split <;> simp

theorem mem_class
    (q : QName)
    (hSuffix : suffix ∈ ["", "Strategy"]) :
    ∀ c ∈ q.simple.toList ++ suffix.toList, isPart c = true :=
  List.forall_mem_append.mpr ⟨q.mem_simple, mem_suffix hSuffix⟩

/- The name of a class has the characters of its name's parts. -/
theorem mem_internalName
    (q : QName)
    (hSuffix : suffix ∈ ["", "Strategy"]) :
    ∀ c ∈ (q.internalName suffix).toList,
      isPart c = true ∨ c = '/' := by
  rw [toList_internalName, List.forall_mem_append]
  refine ⟨?_, fun c hIn => .inl (q.mem_class hSuffix c hIn)⟩
  unfold qualifier
  split
  · simp
  · rw [List.forall_mem_append]
    exact ⟨q.package.mem_text, by simp⟩

theorem qualifier_injective
    {q r : QName}
    (hSame : q.qualifier = r.qualifier) :
    q.package = r.package := by
  have hText : q.package.text.toList = r.package.text.toList := by
    unfold qualifier at hSame
    split at hSame <;> split at hSame <;>
      simp_all [PackageName.isRoot, String.isEmpty_iff]
  exact PackageName.ext (String.toList_inj.mp hText)

theorem last_qualifier
    (q : QName)
    {front : List Char}
    {c : Char}
    (hEnd : q.qualifier = front ++ [c]) :
    c = '/' := by
  unfold qualifier at hEnd
  split at hEnd
  · simp at hEnd
  · exact (List.append_singleton_inj.mp hEnd).2.symm

/-
  A slash parts the package from what stands behind it.  Of
  two qualifiers, neither goes on after a slash.
-/
theorem qualifier_append_inj
    {q r : QName}
    {cs ds : List Char}
    (hcs : ∀ c ∈ cs, isPart c = true)
    (hds : ∀ c ∈ ds, isPart c = true)
    (hSame : q.qualifier ++ cs = r.qualifier ++ ds) :
    q.qualifier = r.qualifier ∧ cs = ds := by
  have hNone : ∀ {q r : QName} {beyond more : List Char},
      (∀ c ∈ beyond ++ more, isPart c = true) →
      r.qualifier = q.qualifier ++ beyond → beyond = [] := by
    intro q r beyond more hParts hLonger
    rcases List.eq_nil_or_concat beyond with rfl | ⟨front, c, rfl⟩
    · rfl
    · rw [List.concat_eq_append, ← List.append_assoc] at hLonger
      have hSlash := hParts c (by simp)
      rw [r.last_qualifier hLonger] at hSlash
      exact absurd hSlash (by decide)
  rcases List.append_eq_append_iff.mp hSame with
    ⟨beyond, hLonger, rfl⟩ | ⟨beyond, hLonger, rfl⟩
  · have hEmpty := hNone hcs hLonger
    simp [hLonger, hEmpty]
  · have hEmpty := hNone hds hLonger
    simp [hLonger, hEmpty]

/- Names with one class name are equal. -/
theorem internalName_injective
    (hSuffix : suffix ∈ ["", "Strategy"])
    {q r : QName}
    (hSame : q.internalName suffix = r.internalName suffix) :
    q = r := by
  rw [← String.toList_inj, toList_internalName,
    toList_internalName] at hSame
  rcases qualifier_append_inj (q.mem_class hSuffix)
    (r.mem_class hSuffix) hSame with ⟨hPackage, hClass⟩
  have hName := String.toList_inj.mp
    (List.append_cancel_right hClass)
  exact QName.ext (qualifier_injective hPackage) hName

end QName

------------------------------------------------------------
-- Descriptors of Names
------------------------------------------------------------

/- The dollar signs of a name part texts that are not empty. -/
def DollarsApart
    (name : String) : Prop :=
  ∀ part ∈ name.toList.splitOn '$', part ≠ []

instance
    (name : String) :
    Decidable (DollarsApart name) :=
  inferInstanceAs (Decidable (∀ part ∈ _, _))

namespace Jvm

/- Of the characters that end a name it has dollar signs only. -/
def OnlyDollars
    (cs : List Char) : Prop :=
  ∀ c ∈ cs, Parser.endsName c = true → c = '$'

theorem Parser.segments_stuck
    {n : Nat}
    {whole more : List Char}
    {make : String → List Ty → ClassTy}
    {c : Char}
    (hStop : endsName c = true)
    (found : ClassTy × List Char) :
    segments n true whole make (c :: more) ≠ .ok found := by
  intro hRead
  cases n with
  | zero => simp [segments] at hRead
  | succ n =>
      rcases segments_first hRead with
        ⟨name, d, behind, hWhole, hName, hSome, -⟩
      cases name with
      | nil => exact hSome rfl
      | cons e name =>
          rw [List.cons_append, List.cons.injEq] at hWhole
          have hGoes := hName e List.mem_cons_self
          rw [← hWhole.1, hStop] at hGoes
          cases hGoes

/-
  A chain of classes is read up to a semicolon exactly if no
  class of it is without a name.  The first class goes up to
  the character that ends it.
-/
theorem Parser.segments_accepted_iff
    {n : Nat}
    {cs : List Char}
    (hPlain : OnlyDollars cs)
    (hFuel : cs.length < n)
    (whole : List Char)
    (make : String → List Ty → ClassTy) :
    (∃ found, segments n true whole make (cs ++ [';']) =
      .ok found) ↔ ∀ part ∈ cs.splitOn '$', part ≠ [] := by
  induction n generalizing cs make with
  | zero => omega
  | succ n ih =>
      have hFirst : ∀ name more, cs = name ++ more → '$' ∉ name →
          ∀ d ∈ name, endsName d = false := by
        intro name more hWhole hNone d hIn
        rw [← Bool.not_eq_true]
        intro hStop
        have hDollar := hPlain d (by simp [hWhole, hIn]) hStop
        exact hNone (hDollar ▸ hIn)
      by_cases hMore : '$' ∈ cs
      case neg =>
          have hName := hFirst cs [] (by simp) hMore
          rw [List.splitOn_eq_singleton hMore, List.forall_mem_singleton]
          by_cases hSome : cs = []
          case pos =>
              subst hSome
              simpa using fun o rest => segments_stuck (by decide) (o, rest)
          case neg =>
              rw [segments_step n whole make [] hName hSome
                (by decide)]
              simp [hSome]
      case pos =>
          rcases List.eq_append_cons_of_mem hMore with
            ⟨name, more, rfl, hNone⟩
          have hName := hFirst name _ rfl hNone
          rw [List.splitOn_append_cons_self_of_not_mem hNone,
            List.forall_mem_cons, List.append_assoc,
            List.cons_append]
          by_cases hSome : name = []
          case pos =>
              subst hSome
              simpa using fun o rest => segments_stuck (by decide) (o, rest)
          case neg =>
              have hInner : OnlyDollars more := fun c hIn =>
                hPlain c (by simp [hIn])
              rw [segments_step n whole make _ hName hSome
                (by decide)]
              simp only [Char.reduceEq, if_false, if_true]
              rw [ih hInner (by simp at hFuel; omega)]
              simp [hSome]

/- What is read has the name that was written. -/
theorem internalName_of_ofDescriptor
    {name : String}
    {t : Ty}
    (hRead : Ty.ofDescriptor ("L" ++ name ++ ";") = .ok t) :
    t.internalName = .ok name := by
  rcases AcceptsName.reads ⟨t, hRead⟩ with ⟨o, hName, hAgain⟩
  have hText : ("L" ++ name ++ ";").toList =
      'L' :: name.toList ++ [';'] := by simp
  unfold Ty.ofDescriptor Ty.parse at hRead
  rw [hText] at hRead
  dsimp only [List.cons_append] at hRead
  rw [← List.cons_append, hAgain []] at hRead
  cases hRead
  simp [Ty.internalName, ClassTy.internalName, hName]

/-
  A name is accepted exactly if its dollar signs stand apart.
  A semicolon inside it would end it.
-/
theorem acceptsName_iff
    {name : String}
    (hPlain : OnlyDollars name.toList) :
    AcceptsName name ↔ DollarsApart name := by
  have hText : ("L" ++ name ++ ";").toList =
      'L' :: (name.toList ++ [';']) := by simp
  rw [DollarsApart, ← Parser.segments_accepted_iff hPlain
    (n := 2 * (name.toList ++ [';']).length + 2) (by simp; omega)
    ('L' :: (name.toList ++ [';'])) .top]
  constructor
  · intro hAccepts
    rcases hAccepts.reads with ⟨o, hName, hReads⟩
    have hRun := hReads []
    rw [List.cons_append, Parser.run_class] at hRun
    rcases Parser.map_eq_ok.mp hRun with ⟨found, hRead, -⟩
    exact ⟨found, hRead⟩
  · rintro ⟨⟨o, rest⟩, hRead⟩
    have hEnd : rest = [] := by
      rcases Parser.segments_erased hRead with ⟨used, hUsed, -⟩
      rcases List.eq_nil_or_concat rest with rfl | ⟨front, c, rfl⟩
      · rfl
      · rw [List.concat_eq_append, ← List.cons_append,
          ← List.append_assoc, List.append_singleton_inj] at hUsed
        have hDollar := hPlain ';' (by simp [hUsed.1]) (by decide)
        exact absurd hDollar (by decide)
    subst hEnd
    refine ⟨.object o, ?_⟩
    unfold Ty.ofDescriptor Ty.parse
    rw [hText]
    dsimp only
    rw [Parser.run_class, hRead]
    rfl

end Jvm

namespace QName

theorem onlyDollars_internalName
    (q : QName)
    (hSuffix : suffix ∈ ["", "Strategy"]) :
    OnlyDollars (q.internalName suffix).toList := by
  intro c hIn hStop
  simp only [Parser.endsName, Bool.or_eq_true, beq_iff_eq] at hStop
  rcases q.mem_internalName hSuffix c hIn with hPart | rfl
  · rcases hStop with (((rfl | rfl) | hDollar) | rfl) | rfl
    · exact absurd hPart (by decide)
    · exact absurd hPart (by decide)
    · exact hDollar
    · exact absurd hPart (by decide)
    · exact absurd hPart (by decide)
  · exact absurd hStop (by decide)

/-
  The class of a legal name can be referred to exactly if the
  dollar signs of its name are apart, and then by that name.
-/
theorem descriptor_accepted_iff
    (q : QName)
    (suffix : String)
    (hSuffix : suffix ∈ ["", "Strategy"]) :
    ((∃ t, Ty.ofDescriptor ("L" ++ q.internalName suffix ++ ";") =
      .ok t) ↔ DollarsApart (q.internalName suffix)) ∧
    ∀ t, Ty.ofDescriptor ("L" ++ q.internalName suffix ++ ";") =
      .ok t → t.internalName = .ok (q.internalName suffix) :=
  ⟨acceptsName_iff (q.onlyDollars_internalName hSuffix),
    fun _ => internalName_of_ofDescriptor⟩

/- A dollar sign inside a name does no harm. -/
theorem dollarInside_accepted :
    ∃ q : QName, q.simple = "a$b" ∧
      ∃ t, Ty.ofDescriptor ("L" ++ q.internalName "Strategy" ++ ";") =
        .ok t ∧ t.internalName = .ok "a$bStrategy" := by
  let q : QName := ⟨.root, "a$b", by decide +kernel⟩
  have hSpec := q.descriptor_accepted_iff "Strategy" (by decide)
  rcases hSpec.1.mpr (by decide +kernel) with ⟨t, hRead⟩
  exact ⟨q, rfl, t, hRead, hSpec.2 t hRead⟩

/- A legal name can make descriptors that are not read. -/
theorem leadingDollar_refused :
    ∃ q : QName, q.simple = "$x" ∧
      ∀ suffix ∈ ["", "Strategy"], ∀ t, Ty.ofDescriptor
        ("L" ++ q.internalName suffix ++ ";") ≠ .ok t := by
  let q : QName := ⟨.root, "$x", by decide +kernel⟩
  refine ⟨q, rfl, ?_⟩
  intro suffix hSuffix t hRead
  have hApart := (acceptsName_iff
    (q.onlyDollars_internalName hSuffix)).mp ⟨t, hRead⟩
  revert hApart
  simp only [List.mem_cons, List.not_mem_nil, or_false] at hSuffix
  rcases hSuffix with rfl | rfl <;> decide +kernel

end QName

/-
  The classes that a compilation can mention are all read if
  the dollar signs of the declared names are apart.
-/
theorem namesAccepted_iff
    (config : Config)
    (decls : List Decl) :
    NamesAccepted config decls ↔
      (∀ d, .classType d ∈ decls →
        DollarsApart (d.name.internalName "")) ∧
      (∀ d, .strategy d ∈ decls →
        DollarsApart (d.name.internalName "Strategy")) ∧
      ∀ n name, config.strategyInterface n = .ok name →
        AcceptsName name := by
  have hApart : ∀ (q : QName) (suffix : String),
      suffix ∈ ["", "Strategy"] →
      (AcceptsName (q.internalName suffix) ↔
        DollarsApart (q.internalName suffix)) := by
    intro q suffix hSuffix
    exact acceptsName_iff (q.onlyDollars_internalName hSuffix)
  constructor
  · rintro ⟨hClasses, hStrategies, hInterfaces⟩
    refine ⟨?_, ?_, hInterfaces⟩
    · intro d hDecl
      exact (hApart d.name "" (by simp)).mp (hClasses d hDecl)
    · intro d hDecl
      exact (hApart d.name "Strategy" (by simp)).mp
        (hStrategies d hDecl)
  · rintro ⟨hClasses, hStrategies, hInterfaces⟩
    refine ⟨?_, ?_, hInterfaces⟩
    · intro d hDecl
      exact (hApart d.name "" (by simp)).mpr (hClasses d hDecl)
    · intro d hDecl
      exact (hApart d.name "Strategy" (by simp)).mpr
        (hStrategies d hDecl)

end Stratagem

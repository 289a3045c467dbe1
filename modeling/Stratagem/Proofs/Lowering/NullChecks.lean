import Stratagem.Proofs.Assembly.NullChecks
import Stratagem.Proofs.Lowering.Writing

/-
  Null checks come before everything else.

  The method with the body of a strategy starts with a check
  for each parameter that can be null, in the order of the
  parameters.  Nothing of the body runs and no such parameter
  is loaded for anything else before it was checked.

  Key definitions include:
    * `Context.nullable`

  Main declarations:
    * `Context.spelled_nullChecks`
    * `Context.HoldsEval.written`
    * `Context.HoldsEval.spelled`
    * `Context.eval_nullChecked`
-/

namespace Stratagem

open Jvm Emitter

namespace Context

------------------------------------------------------------
-- Parameters
------------------------------------------------------------

/-
  The slots of the parameters that can be null, from a slot
  on, with what the exceptions of their checks say.
-/
def nullable
    (className : String) :
    Nat → List (String × Ty) → List (Nat × String)
  | _, [] => []
  | slot, (name, t) :: rest =>
      let more := nullable className (slot + t.width) rest
      if t.isReference then
        (slot, nullMessage className name) :: more
      else
        more

variable {className : String} {slot : Nat}
variable {entries : List (String × Ty)}

theorem le_of_mem_nullable
    (slot : Nat)
    (entries : List (String × Ty)) :
    ∀ e ∈ nullable className slot entries, slot ≤ e.1 := by
  induction entries generalizing slot with
  | nil => exact nofun
  | cons entry entries ih =>
      rcases entry with ⟨name, t⟩
      intro e hIn
      have hMore := ih (slot + t.width) e
      unfold nullable at hIn
      dsimp only at hIn
      split at hIn
      case isTrue =>
          rcases List.mem_cons.mp hIn with rfl | hTail
          · exact Nat.le_refl slot
          · have hLater := hMore hTail
            omega
      case isFalse =>
          have hLater := hMore hIn
          omega

/- No slot is checked twice. -/
theorem nodup_nullable
    (slot : Nat)
    (entries : List (String × Ty)) :
    ((nullable className slot entries).map Prod.fst).Nodup := by
  induction entries generalizing slot with
  | nil => exact List.nodup_nil
  | cons entry entries ih =>
      rcases entry with ⟨name, t⟩
      unfold nullable
      dsimp only
      split
      case isTrue =>
          rw [List.map_cons, List.nodup_cons]
          refine ⟨?_, ih _⟩
          intro hIn
          rcases List.mem_map.mp hIn with ⟨e, he, hSame⟩
          have hLater := le_of_mem_nullable _ _ e he
          have hPos := t.width_pos
          omega
      case isFalse => exact ih _

------------------------------------------------------------
-- Checks
------------------------------------------------------------

variable {m m' : MethodDraft} {points : List CodePoint} {u : Unit}

/- The code of one check, which leaves the locals alone. -/
theorem spelled_nullCheck
    {l : Local}
    {name : String}
    {t : Ty}
    (hSpelled : Spelled m points)
    (hSound : m.Sound)
    (hType : m.types[l.index]? = some t)
    (hNullable : t.isReference = true)
    (hRun : Yields (nullCheck l name className) m u m') :
    m'.Sound ∧ m'.header = m.header ∧ m'.types = m.types ∧
      ∃ k : NullCheck,
        k.subject = (Ty.slotOf m.types l.index,
          nullMessage className name) ∧
        Spelled m' (points ++ k.points) := by
  rcases nullCheck_parts hSound hType hRun with
    ⟨hHeader, hTypes, m₂, m₃, m₄, ⟨hLoad, -⟩, hMade, hThrown,
      hSound₄, rfl⟩
  have hFamily : Family.ofTy t = .ref := by
    cases t with
    | primitive p => cases hNullable
    | _ => rfl
  rw [hFamily] at hLoad
  rcases hSpelled.check hLoad (hMade.trans hThrown) with
    ⟨k, hSubject, hSpelled'⟩
  exact ⟨sound_bind hSound₄ _, hHeader, hTypes, k, hSubject,
    hSpelled'⟩

/- The code of all checks, from a parameter on. -/
theorem spelled_nullChecks
    {position : Nat}
    (hSpelled : Spelled m points)
    (hSound : m.Sound)
    (hObject : m.isStatic = false)
    (hEntries : ∀ (i : Nat) (name : String) (t : Ty),
      entries[i]? = some (name, t) →
        m.types[1 + (position + i)]? = some t)
    (hRun : Gives (nullChecks className position entries) m u m') :
    ∃ checks : List NullCheck,
      Spelled m' (points ++ checks.flatMap NullCheck.points) ∧
      checks.map NullCheck.subject =
        nullable className (Ty.slotOf m.types (1 + position))
          entries := by
  induction entries generalizing m points position with
  | nil =>
      rcases gives_pure.mp hRun with ⟨-, rfl⟩
      exact ⟨[], by simpa using hSpelled, rfl⟩
  | cons entry entries ih =>
      rcases entry with ⟨name, t⟩
      have hHere : m.types[1 + position]? = some t :=
        hEntries 0 name t rfl
      have hNext : Ty.slotOf m.types (1 + (position + 1)) =
          Ty.slotOf m.types (1 + position) + t.width :=
        Ty.slotOf_succ hHere
      have hRest : ∀ (i : Nat) (name : String) (t : Ty),
          entries[i]? = some (name, t) →
            m.types[1 + (position + 1 + i)]? = some t := by
        intro i name t hAt
        rw [Nat.add_assoc position, Nat.add_comm 1 i]
        exact hEntries (i + 1) name t hAt
      unfold nullChecks at hRun
      unfold nullable
      dsimp only
      by_cases hNullable : t.isReference = true
      · rw [if_pos hNullable] at hRun ⊢
        simp only [gives_bind, gives_parameter, gives_emit] at hRun
        rcases hRun with
          ⟨l, m, ⟨hFound, rfl⟩, _, m₁, hCheck, hMore⟩
        rcases index_of_parameter? hObject hFound with ⟨hIndex, -⟩
        rw [← hIndex] at hHere
        rcases spelled_nullCheck hSpelled hSound hHere hNullable
            hCheck with
          ⟨hSound₁, hHeader, hTypes, k, hSubject, hSpelled₁⟩
        rw [← hTypes] at hNext hRest
        have hObject₁ := (header_isStatic hHeader).trans hObject
        rcases ih hSpelled₁ hSound₁ hObject₁ hRest hMore with
          ⟨checks, hAll, hSubjects⟩
        refine ⟨k :: checks, ?_, ?_⟩
        · rw [List.flatMap_cons, ← List.append_assoc]
          exact hAll
        · rw [List.map_cons, hSubjects, hNext, hTypes, hSubject,
            hIndex]
      · rw [if_neg hNullable] at hRun ⊢
        rw [← hNext]
        exact ih hSpelled hSound hObject hRest hRun

------------------------------------------------------------
-- The Body
------------------------------------------------------------

/-
  The draft of the method with the body: the checks are its
  first lines, and straight code follows them.
-/
theorem HoldsEval.written
    {names : List String}
    {signature : MethodSig}
    {p : ConstantPool}
    {member : Member}
    (hHolds : HoldsEval className names signature p member) :
    ∃ (m : MethodDraft) (is : List Instruction)
      (checks : List NullCheck) (rest : List CodePoint),
      m.access = Access.isPublic ∧
      signature.descriptor = .ok m.descriptor ∧
      m.resolve = .ok is ∧
      Spelled m (checks.flatMap NullCheck.points ++ rest) ∧
      rest ≠ [] ∧
      Modest (rest.map CodePoint.action) ∧
      checks.map NullCheck.subject =
        nullable className 1 (names.zip signature.params) ∧
      m.pool.Grown p ∧
      member.Holds m (is.flatMap Instruction.encode) p := by
  rcases hHolds with ⟨d, frame, m₀, m₁, m, as, ts, is, hBegun, hText,
    hChecks, ⟨hEmits, -⟩, hSome, hModest, hHeader, hResolve, hGrown,
    hMember⟩
  have hTypes := hBegun.types_cons rfl
  rcases spelled_nullChecks hBegun.blank.spelled
      hBegun.blank.sound (hBegun.isStatic rfl)
      (by
        intro i name t hAt
        have hSecond : signature.params[i]? = some t :=
          (List.getElem?_zip_eq_some.mp hAt).2
        rw [hTypes, Nat.zero_add, Nat.add_comm]
        exact hSecond) hChecks with
    ⟨checks, hFirst, hSubjects⟩
  have hSlot : Ty.slotOf m₀.types (1 + 0) = 1 := by
    rw [hTypes]
    rfl
  rw [hSlot] at hSubjects
  rcases hEmits.continues with ⟨rest, hContinues, rfl, -⟩
  have hSpelled := hFirst.continues hEmits.grown hEmits.header
    hEmits.labels hContinues
  rw [List.nil_append] at hSpelled
  simp only [MethodDraft.header, Prod.mk.injEq] at hHeader
  refine ⟨m, is, checks, rest, ?_, ?_, hResolve, hSpelled, ?_,
    hModest, hSubjects, hGrown, hMember⟩
  · rw [hHeader.2.2.1, hBegun.access]
  · rw [hHeader.2.2.2.2.1]
    exact hText
  · rintro rfl
    exact hSome rfl

/- The code that the class file has for it. -/
theorem HoldsEval.spelled
    {names : List String}
    {signature : MethodSig}
    {member : Member}
    (file : ClassFile)
    (hHolds : HoldsEval className names signature file.pool
      member) :
    ∃ (descriptor : String) (body : CodeAttribute)
      (is : List Instruction) (checks : List NullCheck)
      (rest : List CodePoint),
      signature.descriptor = .ok descriptor ∧
      file.memberDescriptor? member = some descriptor ∧
      file.codeOf? member = some (.ok body) ∧
      body.handlers = [] ∧
      decodeCode body.code = .ok is ∧
      Linked file.pool is
        (checks.flatMap NullCheck.points ++ rest) ∧
      Chained 0 (checks.flatMap NullCheck.points ++ rest)
        body.code.length ∧
      rest ≠ [] ∧
      checks.map NullCheck.subject =
        nullable className 1 (names.zip signature.params) := by
  rcases hHolds.written with ⟨m, is, checks, rest, -, hText, hResolve,
    ⟨js, hSame, hLaid, -, hLinked⟩, hSome, -, hSubjects, hGrown,
    hMember⟩
  rw [hResolve] at hSame
  cases hSame
  rcases hMember.body with ⟨codeName, body, others, hAttributes,
    hName, hWritable, hCode, hHandlers, -⟩
  refine ⟨m.descriptor, body, is, checks, rest, hText,
    hMember.descriptor,
    file.codeOf?_cons hAttributes hName hWritable, hHandlers, ?_,
    hLinked.within hGrown.within, ?_, hSome, hSubjects⟩
  · rw [hCode]
    exact hLaid.decodeCode_encode
  · have hChained := hLaid.chained hLinked
    rw [Nat.zero_add, ← length_encoded, ← hCode] at hChained
    exact hChained

------------------------------------------------------------
-- The Class
------------------------------------------------------------

variable {c : Context} {decl : StrategyDecl}
variable {definition : StrategyDef} {compiled : CompiledClass}

/- A class that was compiled was made first. -/
theorem generate_of_compileStrategy
    (hRun : c.compileStrategy decl definition = .ok compiled) :
    c.generate decl definition = .ok compiled := by
  unfold compileStrategy at hRun
  rcases ok_bind.mp hRun with ⟨made, hMade, hRest⟩
  split at hRest
  case isTrue =>
      split at hRest
      case h_1 => cases hRest
      case h_2 =>
          cases hRest
          exact hMade
  case isFalse =>
      cases hRest
      exact hMade

/- A definition that fits names all parameters. -/
theorem length_evalNames
    {signature : MethodSig}
    (hFits : checkDefinition decl definition = .ok ())
    (hSignature : c.evalSignature decl.ty = .ok signature) :
    (evalNames definition).length = signature.params.length := by
  have hCount : definition.params.length = decl.ty.arity := by
    unfold checkDefinition at hFits
    dsimp only at hFits
    split at hFits
    case isTrue => cases hFits
    case isFalse hSame => exact not_not.mp hSame
  rw [(evalSignature_parts hSignature).2.1, ← hCount]
  simp [evalNames, StrategyDef.paramNames]

/-
  In every class that is compiled, the code of the method with
  the body starts with the checks, one for each parameter that
  can be null.  They guard the rest of the code.
-/
theorem eval_nullChecked
    (hRun : c.compileStrategy decl definition = .ok compiled) :
    ∃ (signature : MethodSig) (descriptor : String)
      (file : ClassFile) (member : Member) (body : CodeAttribute)
      (is : List Instruction) (checks : List NullCheck)
      (rest : List CodePoint),
      c.evalSignature decl.ty = .ok signature ∧
      signature.descriptor = .ok descriptor ∧
      (evalNames definition).length = signature.params.length ∧
      ClassFile.parse compiled.bytes = .ok file ∧
      file.findMethod? "eval" (some descriptor) = some member ∧
      file.codeOf? member = some (.ok body) ∧
      body.handlers = [] ∧
      decodeCode body.code = .ok is ∧
      Linked file.pool is
        (checks.flatMap NullCheck.points ++ rest) ∧
      Chained 0 (checks.flatMap NullCheck.points ++ rest)
        body.code.length ∧
      rest ≠ [] ∧
      checks.map NullCheck.subject =
        nullable (strategyClass decl).display 1
          ((evalNames definition).zip signature.params) ∧
      NullCheck.Guard checks rest := by
  rcases generate_parts (generate_of_compileStrategy hRun) with
    ⟨interface, access, start, done, hFits, hStart, hMembers,
      hBytes⟩
  rcases written_members (descriptor_ofClass _)
      (ClassDraft.finished_start hStart) hMembers with
    ⟨hWritable, signature, first, second, member, more, hSignature,
      hMethods, hFirst, hSecond, hName, hHolds⟩
  have hParse := hWritable.parse (by omega)
  rcases HoldsEval.spelled done.toClassFile hHolds with
    ⟨descriptor, body, is, checks, rest, hText, hDescriptor, hBody,
      hHandlers, hDecode, hLinked, hChained, hSome, hSubjects⟩
  rw [← hBytes] at hParse
  refine ⟨signature, descriptor, done.toClassFile, member, body, is,
    checks, rest, hSignature, hText,
    length_evalNames hFits hSignature, hParse, ?_, hBody, hHandlers,
    hDecode, hLinked, hChained, hSome, hSubjects, ?_⟩
  · have hFirst' : done.toClassFile.memberName? first =
        some "<init>" := hFirst
    have hSecond' : done.toClassFile.memberName? second =
        some "getInstance" := hSecond
    have hName' : done.toClassFile.memberName? member =
        some "eval" := hName
    have hList : done.toClassFile.methods =
        first :: second :: member :: more := hMethods
    unfold ClassFile.findMethod?
    rw [hList]
    simp [hFirst', hSecond', hName', hDescriptor]
  · refine NullCheck.guard_of_chained hChained ?_
    rw [NullCheck.map_slot, hSubjects]
    exact nodup_nullable _ _

end Context

------------------------------------------------------------
-- A Sample
------------------------------------------------------------

/- A strategy whose second parameter is behind a wide one. -/
def paddedDecl : StrategyDecl where
  name := ⟨.root, "pad", by decide +kernel⟩
  ty := { params := [.base .long, .base .string]
          input := .base .long, output := .base .string }
  modifiers := []
  pointer := { resource := "pad", index := 0 }

/- It gives back its second parameter. -/
def paddedDef : StrategyDef where
  name := paddedDecl.name
  params := [{ name := "width", ty := none },
    { name := "text", ty := none }]
  input := "x"
  body := .var "text" none (.base .string)
  pointer := none

/- Settings for class files that need no frames. -/
def paddedContext : Context where
  symbols := {}
  config := { classVersion := 49, verify := false }
  package := .root

theorem paddedDef_nullChecked :
    ∃ (compiled : CompiledClass) (file : ClassFile)
      (member : Member) (body : CodeAttribute)
      (is : List Instruction) (checks : List NullCheck)
      (rest : List CodePoint),
      paddedContext.compileStrategy paddedDecl paddedDef =
        .ok compiled ∧
      ClassFile.parse compiled.bytes = .ok file ∧
      file.codeOf? member = some (.ok body) ∧
      decodeCode body.code = .ok is ∧
      Linked file.pool is
        (checks.flatMap NullCheck.points ++ rest) ∧
      checks.map NullCheck.slot = [1, 4] ∧
      NullCheck.Guard checks rest := by
  have hMade : (paddedContext.compileStrategy paddedDecl
      paddedDef).toOption.isSome = true := by
    decide +kernel
  cases hRun : paddedContext.compileStrategy paddedDecl
      paddedDef with
  | error e =>
      rw [hRun] at hMade
      cases hMade
  | ok compiled =>
      rcases Context.eval_nullChecked hRun with
        ⟨signature, descriptor, file, member, body, is, checks,
          rest, hSignature, -, -, hParse, -, hBody, -, hDecode,
          hLinked, -, -, hSubjects, hGuard⟩
      cases hSignature
      refine ⟨compiled, file, member, body, is, checks, rest, rfl,
        hParse, hBody, hDecode, hLinked, ?_, hGuard⟩
      rw [NullCheck.map_slot, hSubjects]
      rfl

end Stratagem

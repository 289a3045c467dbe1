import Mathlib.Data.List.Forall2
import Stratagem.Jvm.Signature
import Stratagem.Jvm.Ty.Known
import Stratagem.Proofs.Code.Typing

/-
  Descriptors that are written are read as they were meant.

  A class with a dollar sign in its name is read as a chain of
  nested classes, so what is read need not be the type that was
  written.  Its values are the same.

  Key definitions include:
    * `Jvm.AcceptsName`
    * `Jvm.Ty.Legible`
    * `Jvm.slotsOfLead`

  Main declarations:
    * `Jvm.AcceptsName.reads`
    * `Jvm.Ty.legible_ofClass`
    * `Jvm.MethodSig.parse_descriptor`
    * `Jvm.Ty.slots_ofDescriptor`
-/

namespace Stratagem

namespace Jvm

------------------------------------------------------------
-- Names of Classes
------------------------------------------------------------

namespace Parser

theorem takeWhile_append_of_stop
    {stop : Char → Bool}
    (name : List Char)
    {c : Char}
    (rest : List Char)
    (hName : ∀ d ∈ name, stop d = false)
    (hStop : stop c = true) :
    (name ++ c :: rest).takeWhile (!stop ·) = name ∧
      (name ++ c :: rest).dropWhile (!stop ·) = c :: rest := by
  have hKeep : ∀ d ∈ name, (!stop d) = true := by
    intro d hd
    rw [hName d hd]
    rfl
  constructor
  · rw [List.takeWhile_append_of_pos hKeep]
    simp [hStop]
  · rw [List.dropWhile_append_of_pos hKeep]
    simp [hStop]

/- One class of a chain, without arguments. -/
theorem segments_step
    (n : Nat)
    (whole : List Char)
    (make : String → List Ty → ClassTy)
    {name : List Char}
    {c : Char}
    (rest : List Char)
    (hName : ∀ d ∈ name, endsName d = false)
    (hSome : name ≠ [])
    (hStop : endsName c = true) :
    segments (n + 1) true whole make (name ++ c :: rest) =
      let made := make (String.ofList name) []
      if c = ';' then .ok (made, rest)
      else if c = '.' then
        segments n true whole (.inner made) rest
      else if c = '$' then
        segments n true whole (.nested made) rest
      else .error (.malformed whole) := by
  have hSplit := takeWhile_append_of_stop name rest hName hStop
  have hFilled : name.isEmpty = false := by
    cases name with
    | nil => exact absurd rfl hSome
    | cons d name => rfl
  rw [segments]
  dsimp only
  rw [hSplit.1, hSplit.2, hFilled]
  simp only [endsName, Bool.or_eq_true, beq_iff_eq] at hStop
  rcases hStop with (((rfl | rfl) | rfl) | rfl) | rfl <;> rfl

/- A chain starts with a class whose name ends. -/
theorem segments_first
    {n : Nat}
    {whole cs rest : List Char}
    {make : String → List Ty → ClassTy}
    {o : ClassTy}
    (hRead : segments (n + 1) true whole make cs =
      .ok (o, rest)) :
    ∃ name c more, cs = name ++ c :: more ∧
      (∀ d ∈ name, endsName d = false) ∧ name ≠ [] ∧
      endsName c = true := by
  have hWhole : cs.takeWhile (!endsName ·) ++
      cs.dropWhile (!endsName ·) = cs :=
    List.takeWhile_append_dropWhile
  have hName : ∀ d ∈ cs.takeWhile (!endsName ·),
      endsName d = false := by
    intro d hd
    have hKeep := List.all_eq_true.mp List.all_takeWhile d hd
    simpa using hKeep
  rw [segments] at hRead
  dsimp only at hRead
  cases hTaken : cs.takeWhile (!endsName ·) with
  | nil => simp [hTaken] at hRead
  | cons d name =>
      cases hDropped : cs.dropWhile (!endsName ·) with
      | nil =>
          rw [hTaken, hDropped] at hRead
          cases hRead
      | cons c more =>
          refine ⟨_, c, more, ?_, hName, ?_, ?_⟩
          · rw [← hDropped, hWhole]
          · simp [hTaken]
          · have hHead := List.head_dropWhile_not
              (fun x => !endsName x) (l := cs)
              (by simp [hDropped])
            simpa [hDropped] using hHead

/-
  A chain of classes is read in the same way whatever stands
  behind it, and its name is the text that was read.  Behind a
  point or a dollar sign, the rest of the chain is read so.
-/
theorem segments_erased
    {n : Nat}
    {whole cs rest : List Char}
    {make : String → List Ty → ClassTy}
    {o : ClassTy}
    (hRead : segments n true whole make cs = .ok (o, rest)) :
    ∃ used, cs = used ++ ';' :: rest ∧
      (∀ before, (∀ name args,
          (make name args).renderName = before ++ name.toList) →
        o.renderName = before ++ used) ∧
      ∀ m whole' more, n ≤ m →
        segments m true whole' make (used ++ ';' :: more) =
          .ok (o, more) := by
  induction n generalizing make cs with
  | zero => simp [segments] at hRead
  | succ n ih =>
      rcases segments_first hRead with
        ⟨name, c, behind, rfl, hName, hSome, hStop⟩
      rw [segments_step n whole make behind hName hSome hStop]
        at hRead
      dsimp only at hRead
      have hChain : ∀ (nest : ClassTy → String → List Ty → ClassTy),
          (∀ outer name args, (nest outer name args).renderName =
            outer.renderName ++ c :: name.toList) →
          (∀ m whole' more,
            segments (m + 1) true whole' make (name ++ c :: more) =
              segments m true whole'
                (nest (make (String.ofList name) [])) more) →
          segments n true whole
            (nest (make (String.ofList name) [])) behind =
              .ok (o, rest) →
          ∃ used, name ++ c :: behind = used ++ ';' :: rest ∧
            (∀ before, (∀ name args,
                (make name args).renderName =
                  before ++ name.toList) →
              o.renderName = before ++ used) ∧
            ∀ m whole' more, n + 1 ≤ m →
              segments m true whole' make
                (used ++ ';' :: more) = .ok (o, more) := by
        intro nest hRender hStep hInner
        rcases ih hInner with ⟨used, rfl, hPrinted, hAgain⟩
        refine ⟨name ++ c :: used, by simp, ?_, ?_⟩
        · intro before hMake
          have hFull := hPrinted (before ++ name ++ [c]) ?_
          · simpa using hFull
          · intro inner args
            rw [hRender, hMake]
            simp
        · intro m whole' more hLe
          cases m with
          | zero => omega
          | succ m =>
              have hTail := hAgain m whole' more (by omega)
              rw [List.append_assoc, List.cons_append, hStep, hTail]
      have hStepAt : ∀ m whole' more,
          segments (m + 1) true whole' make (name ++ c :: more) = _ :=
        fun m whole' more =>
          segments_step m whole' make more hName hSome hStop
      dsimp only at hStepAt
      split at hRead
      case isTrue hEnd =>
          subst hEnd
          cases hRead
          refine ⟨name, rfl, ?_, ?_⟩
          · intro before hMake
            rw [hMake]
            simp
          · intro m whole' more hLe
            cases m with
            | zero => omega
            | succ m => exact hStepAt m whole' more
      case isFalse hEnd =>
          simp only [if_neg hEnd] at hStepAt
          split at hRead
          case isTrue hInner =>
              simp only [if_pos hInner] at hStepAt
              subst hInner
              exact hChain .inner (fun _ _ _ => rfl) hStepAt hRead
          case isFalse hInner =>
              simp only [if_neg hInner] at hStepAt
              split at hRead
              case isTrue hNested =>
                  simp only [if_pos hNested] at hStepAt
                  subst hNested
                  exact hChain .nested (fun _ _ _ => rfl) hStepAt
                    hRead
              case isFalse => cases hRead

theorem run_class
    (cs : List Char) :
    run true ('L' :: cs) =
      (segments (2 * cs.length + 2) true ('L' :: cs) .top cs).map
        fun (o, rest) => (.object o, rest) := by
  unfold run
  rw [List.length_cons, Nat.mul_add, ty]
  rfl

end Parser

/- A name that is read as the name of a class. -/
def AcceptsName
    (name : String) : Prop :=
  ∃ t, Ty.ofDescriptor ("L" ++ name ++ ";") = .ok t

/- The class with such a name is read, whatever follows. -/
theorem AcceptsName.reads
    {name : String}
    (hAccepts : AcceptsName name) :
    ∃ o : ClassTy, o.renderName = name.toList ∧
      ∀ rest, Parser.run true ('L' :: name.toList ++ ';' :: rest) =
        .ok (.object o, rest) := by
  rcases hAccepts with ⟨t, hRead⟩
  have hText : ("L" ++ name ++ ";").toList =
      'L' :: (name.toList ++ [';']) := by simp
  unfold Ty.ofDescriptor Ty.parse at hRead
  rw [hText] at hRead
  dsimp only at hRead
  rw [Parser.run_class] at hRead
  cases hSegments : Parser.segments
      (2 * (name.toList ++ [';']).length + 2) true
      ('L' :: (name.toList ++ [';'])) .top
      (name.toList ++ [';']) with
  | error e =>
      rw [hSegments] at hRead
      cases hRead
  | ok found =>
      rcases found with ⟨o, behind⟩
      rw [hSegments] at hRead
      cases behind with
      | cons c behind => cases hRead
      | nil =>
          rcases Parser.segments_erased hSegments with
            ⟨used, hUsed, hPrinted, hAgain⟩
          have hName : name.toList = used :=
            List.append_cancel_right hUsed
          subst hName
          refine ⟨o, hPrinted [] fun _ _ => rfl, ?_⟩
          intro rest
          have hMore := hAgain
            (2 * (name.toList ++ ';' :: rest).length + 2)
            ('L' :: (name.toList ++ ';' :: rest)) rest
            (by
              simp only [List.length_append, List.length_cons,
                List.length_nil]
              omega)
          rw [List.cons_append, Parser.run_class, hMore]
          rfl

------------------------------------------------------------
-- Types
------------------------------------------------------------

namespace Ty

/-
  The descriptor of a type is read as a type with the same
  values, whatever follows.
-/
def Legible
    (t : Ty) : Prop :=
  ∃ cs u, t.renderDescriptor = .ok cs ∧
    (∀ rest, Parser.run true (cs ++ rest) = .ok (u, rest)) ∧
    u.isValue = t.isValue ∧ u.isVoid = t.isVoid ∧
    VType.ofTy u = VType.ofTy t

theorem legible_primitive
    (p : Primitive) :
    Legible (.primitive p) := by
  refine ⟨[p.letter], .primitive p, rfl, ?_, rfl, rfl, rfl⟩
  intro rest
  cases p <;> rfl

theorem legible_ofClass
    {name : String}
    (args : List Ty)
    (hAccepts : AcceptsName name) :
    Legible (.object (.top name args)) := by
  rcases hAccepts.reads with ⟨o, hName, hReads⟩
  refine ⟨'L' :: name.toList ++ [';'], .object o, rfl, ?_, rfl,
    rfl, ?_⟩
  · intro rest
    simpa using hReads rest
  · simp [VType.ofTy, ClassTy.internalName, ClassTy.renderName,
      hName]

theorem legible_object :
    Legible Known.object :=
  legible_ofClass [] ⟨_, rfl⟩

theorem legible_variable
    (x : String) :
    Legible (.variable x) := by
  rcases legible_object with
    ⟨cs, u, hPrinted, hReads, hValue, hVoid, hTy⟩
  cases hPrinted
  exact ⟨_, u, rfl, hReads, hValue, hVoid, hTy⟩

/- A descriptor is a text, and no parenthesis closes it. -/
theorem descriptor_starts
    {cs : List Char}
    {u : Ty}
    (hReads : ∀ rest, Parser.run true (cs ++ rest) = .ok (u, rest)) :
    ∃ c more, cs = c :: more ∧ c ≠ ')' := by
  cases cs with
  | nil => cases hReads []
  | cons c more =>
      refine ⟨c, more, rfl, ?_⟩
      rintro rfl
      cases hReads []

theorem descriptor_eq_ok
    {t : Ty}
    {d : String} :
    t.descriptor = .ok d ↔ t.renderDescriptor = .ok d.toList := by
  unfold descriptor
  cases t.renderDescriptor with
  | error e =>
      constructor
      · intro hError
        cases hError
      · intro hError
        cases hError
  | ok cs =>
      change Except.ok (String.ofList cs) = Except.ok d ↔ _
      simp only [Except.ok.injEq]
      constructor
      · rintro rfl
        simp
      · rintro rfl
        simp

/- The values of the type with given characters. -/
def valuesOf : List Char → VType
  | 'L' :: cs => .object (String.ofList cs.dropLast)
  | '[' :: cs => .object (String.ofList ('[' :: cs))
  | cs => ((cs.head?.bind Primitive.ofLetter?).map fun p =>
      VType.ofTy (.primitive p)).getD .top

theorem ofTy_eq_valuesOf
    {t : Ty}
    {cs : List Char}
    (hPrinted : t.renderDescriptor = .ok cs) :
    VType.ofTy t = valuesOf cs := by
  cases t with
  | primitive p =>
      cases hPrinted
      cases p <;> rfl
  | array t =>
      cases hElement : t.renderDescriptor with
      | error e =>
          rw [renderDescriptor, hElement] at hPrinted
          cases hPrinted
      | ok ds =>
          have hText : (Ty.array t).descriptor =
              .ok (String.ofList cs) := by
            rw [descriptor_eq_ok, String.toList_ofList, hPrinted]
          rw [renderDescriptor, hElement] at hPrinted
          cases hPrinted
          rw [VType.ofTy, hText]
          rfl
  | object c =>
      cases hPrinted
      simp [VType.ofTy, valuesOf, ClassTy.internalName]
  | «variable» x =>
      cases hPrinted
      rfl
  | argument a => cases hPrinted

/- Values are told apart by descriptors alone. -/
theorem ofTy_eq_of_descriptor
    {t u : Ty}
    {d : String}
    (ht : t.descriptor = .ok d)
    (hu : u.descriptor = .ok d) :
    VType.ofTy t = VType.ofTy u := by
  rw [ofTy_eq_valuesOf (descriptor_eq_ok.mp ht),
    ofTy_eq_valuesOf (descriptor_eq_ok.mp hu)]

/- The descriptor of a field is read as what it was made of. -/
theorem Legible.ofDescriptor
    {t : Ty}
    {d : String}
    (hLegible : t.Legible)
    (hText : t.descriptor = .ok d) :
    ∃ u, Ty.ofDescriptor d = .ok u ∧ u.isValue = t.isValue ∧
      VType.ofTy u = VType.ofTy t := by
  rcases hLegible with ⟨cs, u, hPrinted, hReads, hValue, _, hTy⟩
  rw [descriptor_eq_ok, hPrinted] at hText
  cases hText
  rcases descriptor_starts hReads with ⟨c, more, hStart, _⟩
  have hWhole := hReads []
  rw [List.append_nil] at hWhole
  refine ⟨u, ?_, hValue, hTy⟩
  unfold Ty.ofDescriptor Ty.parse
  rw [hStart] at hWhole ⊢
  dsimp only
  rw [hWhole]

end Ty

------------------------------------------------------------
-- Methods
------------------------------------------------------------

/- The descriptor of a type is read as a related type. -/
def Ty.ReadsAs
    (R : Ty → Ty → Prop)
    (t : Ty) : Prop :=
  ∃ cs u, t.renderDescriptor = .ok cs ∧
    (∀ rest, Parser.run true (cs ++ rest) = .ok (u, rest)) ∧
    R t u

/- Descriptors in a row are read up to the parenthesis. -/
theorem Parser.parameters_reads
    {R : Ty → Ty → Prop}
    {ts : List Ty}
    (hReads : ∀ t ∈ ts, t.ReadsAs R) :
    ∃ texts us, ts.mapM Ty.descriptor = .ok texts ∧
      ts.length ≤ (String.join texts).toList.length ∧
      (∀ n whole rest, ts.length < n →
        Parser.parameters n whole
          ((String.join texts).toList ++ ')' :: rest) =
            .ok (us, rest)) ∧
      List.Forall₂ R ts us := by
  induction ts with
  | nil =>
      refine ⟨[], [], rfl, Nat.zero_le _, ?_, .nil⟩
      intro n whole rest hLt
      cases n with
      | zero => cases hLt
      | succ n => rfl
  | cons t ts ih =>
      rcases hReads t List.mem_cons_self with
        ⟨cs, u, hPrinted, hRun, hRelated⟩
      rcases ih fun v hv =>
          hReads v (List.mem_cons_of_mem t hv) with
        ⟨texts, us, hTexts, hLength, hMore, hAll⟩
      rcases Ty.descriptor_starts hRun with
        ⟨c, own, rfl, hOpen⟩
      have hText : t.descriptor = .ok (String.ofList (c :: own)) := by
        rw [Ty.descriptor, hPrinted]
        rfl
      refine ⟨String.ofList (c :: own) :: texts, u :: us, ?_, ?_, ?_,
        .cons hRelated hAll⟩
      · rw [List.mapM_cons, hText, hTexts]
        rfl
      · rw [String.toList_join] at hLength ⊢
        simp only [List.flatMap_cons, List.length_append,
          String.toList_ofList, List.length_cons]
        omega
      · intro n whole rest hLt
        cases n with
        | zero => cases hLt
        | succ n =>
            have hFirst := hRun
              ((String.join texts).toList ++ ')' :: rest)
            have hRest := hMore n whole rest (by
              rw [List.length_cons] at hLt
              omega)
            rw [String.toList_join] at hFirst hRest ⊢
            rw [List.flatMap_cons, String.toList_ofList,
              List.append_assoc]
            rw [List.cons_append] at hFirst ⊢
            rw [Parser.parameters]
            · rw [hFirst]
              simp only [bind, Except.bind]
              rw [hRest]
              rfl
            · exact nofun
            · rintro more hMatch
              cases hMatch
              exact hOpen rfl

/- The descriptor of a method is read as a related method. -/
theorem MethodSig.parse_reads
    {R : Ty → Ty → Prop}
    {m : MethodSig}
    (hParams : ∀ t ∈ m.params, t.ReadsAs R)
    (hResult : m.result.ReadsAs R) :
    ∃ d params result, m.descriptor = .ok d ∧
      m.params.length + 3 ≤ d.toList.length ∧
      parseMethodDescriptor d = .ok (params, result) ∧
      List.Forall₂ R m.params params ∧ R m.result result := by
  rcases Parser.parameters_reads hParams with
    ⟨texts, us, hTexts, hLength, hReads, hAllRelated⟩
  rcases hResult with ⟨cs, u, hPrinted, hResult, hRelated⟩
  rcases Ty.descriptor_starts hResult with ⟨c, more, rfl, _⟩
  have hText : m.result.descriptor =
      .ok (String.ofList (c :: more)) := by
    rw [Ty.descriptor, hPrinted]
    rfl
  refine ⟨"(" ++ String.join texts ++ ")" ++
    String.ofList (c :: more), us, u, ?_, ?_, ?_, hAllRelated,
    hRelated⟩
  · rw [MethodSig.descriptor, hTexts, hText]
    rfl
  · simp only [String.toList_append, List.length_append,
      String.toList_ofList, List.length_cons]
    have hOpen : "(".toList.length = 1 := rfl
    have hClose : ")".toList.length = 1 := rfl
    omega
  · have hCharacters :
        ("(" ++ String.join texts ++ ")" ++
          String.ofList (c :: more)).toList =
          '(' :: ((String.join texts).toList ++
            ')' :: (c :: more)) := by
      simp
    unfold parseMethodDescriptor
    rw [hCharacters]
    have hAll := hReads ('(' :: ((String.join texts).toList ++
      ')' :: (c :: more))).length
      ('(' :: ((String.join texts).toList ++ ')' :: (c :: more)))
      (c :: more) (by
        simp only [List.length_cons, List.length_append]
        omega)
    have hEnd := hResult []
    rw [List.append_nil] at hEnd
    rw [Parser.method, hAll]
    simp only [bind, Except.bind]
    rw [hEnd]
    rfl

/- The descriptor of a method is read as what it was made of. -/
theorem MethodSig.parse_descriptor
    {m : MethodSig}
    (hParams : ∀ t ∈ m.params, t.Legible)
    (hResult : m.result.Legible) :
    ∃ d params result, m.descriptor = .ok d ∧
      m.params.length + 3 ≤ d.toList.length ∧
      parseMethodDescriptor d = .ok (params, result) ∧
      params.map VType.ofTy = m.params.map VType.ofTy ∧
      params.all Ty.isValue = m.params.all Ty.isValue ∧
      result.isValue = m.result.isValue ∧
      result.isVoid = m.result.isVoid ∧
      VType.ofTy result = VType.ofTy m.result := by
  rcases parse_reads hParams hResult with
    ⟨d, params, result, hText, hLength, hReads, hAll, hValue,
      hVoid, hTy⟩
  have hTys : List.Forall₂ (· = ·) (m.params.map VType.ofTy)
      (params.map VType.ofTy) := by
    rw [List.forall₂_map_left_iff, List.forall₂_map_right_iff]
    exact hAll.imp fun _ _ hSame => hSame.2.2.symm
  have hValues : List.Forall₂ (· = ·) (m.params.map Ty.isValue)
      (params.map Ty.isValue) := by
    rw [List.forall₂_map_left_iff, List.forall₂_map_right_iff]
    exact hAll.imp fun _ _ hSame => hSame.1.symm
  rw [List.forall₂_eq_eq_eq] at hTys hValues
  refine ⟨d, params, result, hText, hLength, hReads, hTys.symm, ?_,
    hValue, hVoid, hTy⟩
  have hAllValues := congrArg (List.all · id) hValues
  simpa [List.all_map] using hAllValues.symm

/- A descriptor that can be read has the parameters it is for. -/
theorem MethodSig.length_of_parse
    {m : MethodSig}
    {d : String}
    {params : List Ty}
    {result : Ty}
    (hParams : ∀ t ∈ m.params, t.Legible)
    (hText : m.descriptor = .ok d)
    (hReads : parseMethodDescriptor d = .ok (params, result)) :
    params.length = m.params.length := by
  rcases Parser.parameters_reads hParams with
    ⟨texts, us, hTexts, hLength, hMore, hAll⟩
  simp only [MethodSig.descriptor, hTexts, ok_bind] at hText
  rcases hText with ⟨_, ⟨rfl⟩, r, -, ⟨rfl⟩⟩
  have hCharacters :
      ("(" ++ String.join texts ++ ")" ++ r).toList =
        '(' :: ((String.join texts).toList ++ ')' :: r.toList) := by
    simp
  unfold parseMethodDescriptor at hReads
  rw [hCharacters] at hReads
  have hRead := hMore
    ('(' :: ((String.join texts).toList ++ ')' :: r.toList)).length
    ('(' :: ((String.join texts).toList ++ ')' :: r.toList))
    r.toList (by
      simp only [List.length_cons, List.length_append]
      omega)
  rw [Parser.method, hRead] at hReads
  simp only [bind, Except.bind] at hReads
  split at hReads
  case h_1 => cases hReads
  case h_2 hRun =>
      split at hRun
      case h_1 => cases hRun
      case h_2 =>
          rcases Prod.ext_iff.mp (Except.ok.inj hRun) with ⟨rfl, -⟩
          cases hReads
          exact hAll.length_eq.symm
  case h_3 => cases hReads

------------------------------------------------------------
-- Widths
------------------------------------------------------------

/- Slots of a value whose descriptor starts with a character. -/
def slotsOfLead
    (c : Char) : Nat :=
  ((Primitive.ofLetter? c).map fun p =>
    (Ty.primitive p).slots).getD 1

/- The first character of a descriptor tells what is read. -/
theorem Parser.ty_erased
    {n : Nat}
    {c : Char}
    {cs rest : List Char}
    {t : Ty}
    (hRead : Parser.ty n true (c :: cs) = .ok (t, rest)) :
    t.slots = slotsOfLead c ∧ (t.isValue || t.isVoid) = true := by
  cases n with
  | zero => cases hRead
  | succ n =>
      unfold slotsOfLead
      rw [Parser.ty] at hRead
      cases hLetter : Primitive.ofLetter? c with
      | some p =>
          rw [hLetter] at hRead
          cases hRead
          refine ⟨rfl, ?_⟩
          cases p <;> rfl
      | none =>
          rw [hLetter] at hRead
          dsimp only at hRead
          split at hRead
          case isTrue =>
              split at hRead
              case isTrue => cases hRead
              case isFalse =>
                  rcases hInner : Parser.ty n true cs with _ | _ <;>
                    rw [hInner] at hRead <;> cases hRead
                  exact ⟨rfl, rfl⟩
          case isFalse =>
              split at hRead
              case isTrue =>
                  rcases hInner : Parser.segments n true (c :: cs)
                    .top cs with _ | _ <;>
                    rw [hInner] at hRead <;> cases hRead
                  exact ⟨rfl, rfl⟩
              case isFalse =>
                  split at hRead
                  case isTrue => cases hRead
                  case isFalse =>
                      split at hRead <;> cases hRead

theorem Ty.slots_of_renderDescriptor
    {t : Ty}
    {cs : List Char}
    (hPrinted : t.renderDescriptor = .ok cs) :
    ∃ c more, cs = c :: more ∧ t.slots = slotsOfLead c := by
  cases t with
  | primitive p =>
      cases hPrinted
      refine ⟨p.letter, [], rfl, ?_⟩
      cases p <;> rfl
  | array t =>
      cases hElement : t.renderDescriptor with
      | error e =>
          rw [renderDescriptor, hElement] at hPrinted
          cases hPrinted
      | ok ds =>
          rw [renderDescriptor, hElement] at hPrinted
          cases hPrinted
          exact ⟨'[', ds, rfl, rfl⟩
  | object c =>
      cases hPrinted
      exact ⟨'L', _, rfl, rfl⟩
  | «variable» x =>
      cases hPrinted
      exact ⟨'L', _, rfl, rfl⟩
  | argument a => cases hPrinted

/- A descriptor that can be read is read as of the same width. -/
theorem Ty.slots_ofDescriptor
    {t u : Ty}
    {d : String}
    (hText : t.descriptor = .ok d)
    (hRead : Ty.ofDescriptor d = .ok u) :
    u.slots = t.slots := by
  rcases slots_of_renderDescriptor (descriptor_eq_ok.mp hText) with
    ⟨c, more, hChars, hSlots⟩
  unfold Ty.ofDescriptor Ty.parse at hRead
  rw [hChars] at hRead
  dsimp only at hRead
  rcases hRun : Parser.run true (c :: more) with _ | ⟨v, rest⟩
  · rw [hRun] at hRead
    cases hRead
  · rw [hRun] at hRead
    cases rest with
    | nil =>
        cases hRead
        rw [hSlots]
        exact (Parser.ty_erased hRun).1
    | cons _ _ => cases hRead

/- How a descriptor was read: its parameters, then its result. -/
theorem parts_of_parse
    {d : String}
    {params : List Ty}
    {result : Ty}
    (hParse : parseMethodDescriptor d = .ok (params, result)) :
    ∃ inside behind, d.toList = '(' :: inside ∧
      Parser.parameters d.toList.length d.toList inside =
        .ok (params, behind) ∧
      Parser.run true behind = .ok (result, []) := by
  unfold parseMethodDescriptor at hParse
  split at hParse
  case h_1 => cases hParse
  case h_3 => cases hParse
  case h_2 m hMethod =>
      cases hParse
      unfold Parser.method at hMethod
      split at hMethod
      case h_2 => cases hMethod
      case h_1 inside hOpen =>
          simp only [ok_bind, Prod.exists] at hMethod
          rcases hMethod with
            ⟨ts, behind, hParams, t, last, hResult, hEnd⟩
          cases hEnd
          exact ⟨inside, behind, hOpen, hOpen ▸ hParams, hResult⟩

/- A method returns a value or nothing. -/
theorem result_of_parse
    {d : String}
    {params : List Ty}
    {result : Ty}
    (hParse : parseMethodDescriptor d = .ok (params, result)) :
    (result.isValue || result.isVoid) = true := by
  rcases parts_of_parse hParse with ⟨_, behind, -, -, hResult⟩
  cases behind with
  | nil => cases hResult
  | cons c cs => exact (Parser.ty_erased hResult).2

end Jvm

end Stratagem

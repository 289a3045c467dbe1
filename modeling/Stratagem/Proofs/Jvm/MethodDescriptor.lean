import Stratagem.Proofs.Jvm.Fidelity

/-
  Descriptors of methods are cut where they were joined.

  The descriptors of the parameters follow one another without
  a mark between them.  A text that is read is spelled by what
  is read from it, and what was joined is cut at the same
  places again.  If a name has marks of the format in it, it
  can only be cut at more places.

  Key definitions include:
    * `Jvm.Ty.Alike`
    * `Jvm.pieces`

  Main declarations:
    * `Jvm.Parser.ty_exact`
    * `Jvm.Ty.Segmented.readsAs`
    * `Jvm.MethodSig.descriptor_decodable`
    * `Jvm.MethodSig.length_le_of_parse`
-/

namespace Stratagem

namespace Jvm

------------------------------------------------------------
-- What Is Read Spells the Text
------------------------------------------------------------

namespace Parser

/- No variable or argument is read from an erased text. -/
theorem ty_erased_cases
    {n : Nat}
    {c : Char}
    {cs rest : List Char}
    {t : Ty}
    (hRead : ty (n + 1) true (c :: cs) = .ok (t, rest)) :
    (∃ p, c = p.letter ∧ t = .primitive p ∧ rest = cs) ∨
    (c = '[' ∧ ∃ u, t = .array u ∧ ty n true cs = .ok (u, rest)) ∨
    (c = 'L' ∧ ∃ o, t = .object o ∧
      segments n true (c :: cs) .top cs = .ok (o, rest)) := by
  have hCases := ty_cases hRead
  have hErased : c ∉ ['T', '*', '+', '-'] :=
    fun hSign => nomatch (sign_of_ty hSign hRead).1
  simp only [List.mem_cons, List.not_mem_nil, or_false, not_or]
    at hErased
  simpa only [hErased, false_and, or_false] using hCases

/- An erased type that is read is printed as what was read. -/
theorem ty_exact
    {n : Nat}
    {cs rest : List Char}
    {t : Ty}
    (hRead : ty n true cs = .ok (t, rest)) :
    ∃ used, t.renderDescriptor = .ok used ∧ cs = used ++ rest := by
  induction n generalizing cs t with
  | zero => cases hRead
  | succ n ih =>
      cases cs with
      | nil => cases hRead
      | cons c cs =>
          rcases ty_erased_cases hRead with
            ⟨p, rfl, rfl, rfl⟩ | ⟨rfl, u, rfl, hInner⟩ |
            ⟨rfl, o, rfl, hChain⟩
          · exact ⟨[p.letter], rfl, rfl⟩
          · rcases ih hInner with ⟨used, hPrinted, rfl⟩
            refine ⟨'[' :: used, ?_, rfl⟩
            rw [Ty.renderDescriptor, hPrinted]
            rfl
          · rcases segments_erased hChain with ⟨used, rfl, hName, -⟩
            refine ⟨'L' :: used ++ [';'], ?_, by simp⟩
            rw [Ty.renderDescriptor, hName [] fun _ _ => rfl]
            rfl

/- Parameters that are read spell the text up to the mark. -/
theorem parameters_exact
    {n : Nat}
    {whole cs rest : List Char}
    {ts : List Ty}
    (hRead : parameters n whole cs = .ok (ts, rest)) :
    ∃ texts, ts.mapM Ty.descriptor = .ok texts ∧
      cs = (String.join texts).toList ++ ')' :: rest := by
  induction n generalizing cs ts with
  | zero => cases hRead
  | succ n ih =>
      unfold parameters at hRead
      split at hRead
      case h_1 => cases hRead
      case h_2 =>
          cases hRead
          exact ⟨[], rfl, rfl⟩
      case h_3 =>
          simp only [ok_bind, Prod.exists] at hRead
          rcases hRead with ⟨t, behind, hFirst, us, last, hMore, hEnd⟩
          cases hEnd
          rcases ty_exact hFirst with ⟨used, hPrinted, rfl⟩
          rcases ih hMore with ⟨texts, hTexts, rfl⟩
          have hText : t.descriptor = .ok (String.ofList used) := by
            rw [Ty.descriptor, hPrinted]
            rfl
          refine ⟨String.ofList used :: texts, ?_, ?_⟩
          · rw [List.mapM_cons, hText, hTexts]
            rfl
          · simp [String.toList_join]

end Parser

/- A descriptor that is read is spelled by its parts. -/
theorem parseMethodDescriptor_exact
    {s : String}
    {ps : List Ty}
    {r : Ty}
    (hRead : parseMethodDescriptor s = .ok (ps, r)) :
    ∃ texts d, ps.mapM Ty.descriptor = .ok texts ∧
      r.descriptor = .ok d ∧
      s = "(" ++ String.join texts ++ ")" ++ d := by
  rcases parts_of_parse hRead with
    ⟨inside, behind, hOpen, hParams, hResult⟩
  rcases Parser.parameters_exact hParams with ⟨texts, hTexts, rfl⟩
  rcases Parser.ty_exact hResult with ⟨used, hPrinted, rfl⟩
  refine ⟨texts, String.ofList used, hTexts, ?_, ?_⟩
  · rw [Ty.descriptor, hPrinted]
    rfl
  · apply String.toList_injective
    rw [hOpen]
    simp

/- A descriptor that is read as a type is that type's. -/
theorem Ty.descriptor_of_ofDescriptor
    {d : String}
    {t : Ty}
    (hRead : Ty.ofDescriptor d = .ok t) :
    t.descriptor = .ok d := by
  unfold Ty.ofDescriptor Ty.parse at hRead
  split at hRead
  case h_1 => cases hRead
  case h_2 =>
      split at hRead
      case h_1 => cases hRead
      case h_3 => cases hRead
      case h_2 u hRun =>
          cases hRead
          rcases Parser.ty_exact hRun with ⟨used, hPrinted, hText⟩
          rw [descriptor_eq_ok, hText, List.append_nil, hPrinted]

------------------------------------------------------------
-- What Is Joined Is Cut Again
------------------------------------------------------------

namespace Ty

/- Two types with one descriptor and values of one width. -/
def Alike
    (t u : Ty) : Prop :=
  u.descriptor = t.descriptor ∧ u.slots = t.slots

/- The descriptor of a type is read as a type like it. -/
theorem Segmented.readsAs
    {t : Ty}
    {d : String}
    (hSegmented : t.Segmented)
    (hText : t.descriptor = .ok d) :
    t.ReadsAs Alike := by
  have hPrinted := descriptor_eq_ok.mp hText
  rcases hSegmented.renderSignature_erasure hPrinted with
    ⟨hPrintable, hErased, hShown, hAgain⟩
  have hReads : ∀ rest, Parser.run true (d.toList ++ rest) =
      .ok (t.erasure.reread, rest) := by
    intro rest
    have hRead := Parser.ty_reads
      (n := 2 * (d.toList ++ rest).length + 1) rest t.erasure
      hPrintable (fun _ : true = true => hErased) (by
        rw [hShown, List.length_append]
        omega)
    rwa [hShown] at hRead
  have hSame := renderDescriptor_reread hAgain
  refine ⟨d.toList, t.erasure.reread, hPrinted, hReads, ?_, ?_⟩
  · rw [hText, descriptor_eq_ok]
    exact hSame
  · rcases slots_of_renderDescriptor hPrinted with
      ⟨c, more, hStart, hSlots⟩
    rcases slots_of_renderDescriptor hSame with
      ⟨c', more', hStart', hSlots'⟩
    cases hStart.symm.trans hStart'
    rw [hSlots, hSlots']

theorem descriptors_of_alike
    {ts us : List Ty}
    (hAlike : List.Forall₂ Alike ts us) :
    us.mapM descriptor = ts.mapM descriptor := by
  induction hAlike with
  | nil => rfl
  | cons hFirst _ ih =>
      rw [List.mapM_cons, List.mapM_cons, hFirst.1, ih]

theorem totalSlots_of_alike
    {ts us : List Ty}
    (hAlike : List.Forall₂ Alike ts us) :
    totalSlots us = totalSlots ts := by
  induction hAlike with
  | nil => rfl
  | cons hFirst _ ih =>
      unfold totalSlots at ih ⊢
      rw [List.foldr_cons, List.foldr_cons, hFirst.2, ih]

/- Types that are printed in a row are printed one by one. -/
theorem exists_descriptor_of_mem
    {ts : List Ty}
    {texts : List String}
    {t : Ty}
    (hTexts : ts.mapM descriptor = .ok texts)
    (hMem : t ∈ ts) :
    ∃ d, t.descriptor = .ok d := by
  induction ts generalizing texts with
  | nil => cases hMem
  | cons u us ih =>
      simp only [List.mapM_cons, ok_bind] at hTexts
      rcases hTexts with ⟨d, hFirst, more, hMore, -⟩
      rcases List.mem_cons.mp hMem with rfl | hLater
      · exact ⟨d, hFirst⟩
      · exact ih hMore hLater

end Ty

namespace MethodSig

/- The parts of a method that has a descriptor have one. -/
theorem descriptor_parts
    {m : MethodSig}
    {d : String}
    (hText : m.descriptor = .ok d) :
    (∀ t ∈ m.params, ∃ p, t.descriptor = .ok p) ∧
      ∃ r, m.result.descriptor = .ok r := by
  simp only [descriptor, ok_bind] at hText
  rcases hText with ⟨texts, hTexts, r, hResult, -⟩
  exact ⟨fun t hMem => Ty.exists_descriptor_of_mem hTexts hMem, r,
    hResult⟩

/-
  A descriptor that is read is made of the descriptors of what
  was read.  One that was made of a method is read as a method
  with the same descriptors in the same places.
-/
theorem descriptor_decodable :
    (∀ (s : String) (ps : List Ty) (r : Ty),
      parseMethodDescriptor s = .ok (ps, r) →
      ∃ texts d, ps.mapM Ty.descriptor = .ok texts ∧
        r.descriptor = .ok d ∧
        s = "(" ++ String.join texts ++ ")" ++ d) ∧
    ∀ (m : MethodSig) (d : String),
      (∀ t ∈ m.params, t.Segmented) →
      m.result.Segmented →
      m.descriptor = .ok d →
      ∃ m', ofDescriptor d = .ok m' ∧
        m'.params.length = m.params.length ∧
        List.Forall₂ Ty.Alike m.params m'.params ∧
        m.result.Alike m'.result ∧
        m'.parameterSlots = m.parameterSlots ∧
        m'.descriptor = .ok d := by
  refine ⟨fun s ps r => parseMethodDescriptor_exact, ?_⟩
  intro m d hParams hResult hText
  rcases descriptor_parts hText with ⟨hTexts, r, hLast⟩
  have hAllRead : ∀ t ∈ m.params, t.ReadsAs Ty.Alike := by
    intro t hMem
    rcases hTexts t hMem with ⟨p, hPrinted⟩
    exact (hParams t hMem).readsAs hPrinted
  rcases parse_reads hAllRead (hResult.readsAs hLast) with
    ⟨d', params, result, hSame, -, hRead, hAlike, hLastAlike⟩
  cases hSame.symm.trans hText
  refine ⟨{ result, params }, ?_, hAlike.length_eq.symm, hAlike,
    hLastAlike, ?_, ?_⟩
  · rw [ofDescriptor, hRead]
    rfl
  · rw [parameterSlots, parameterSlots,
      Ty.totalSlots_of_alike hAlike]
  · rw [← hText, descriptor, descriptor,
      Ty.descriptors_of_alike hAlike, hLastAlike.1]

/-
  A method of a wide number, an array of inner classes, a class
  with a bounded argument and a variable.
-/
def mixedSample : MethodSig where
  params := [.primitive .long,
    .array (.object (.inner (.top "a/Outer" []) "Inner" [])),
    .object (.nested (.top "b/Map" []) "Entry"
      [.argument (.covariant (.variable "K"))])]
  result := .variable "E"
  typeParams := [{ name := "E" }]

theorem mixedSample_decodable :
    mixedSample.descriptor = .ok
        "(J[La/Outer.Inner;Lb/Map$Entry;)Ljava/lang/Object;" ∧
      ∃ m', ofDescriptor
          "(J[La/Outer.Inner;Lb/Map$Entry;)Ljava/lang/Object;" =
            .ok m' ∧
        m'.params.length = 3 ∧ m'.parameterSlots = 4 ∧
        ∃ texts r, m'.params.mapM Ty.descriptor = .ok texts ∧
          m'.result.descriptor = .ok r ∧
          "(J[La/Outer.Inner;Lb/Map$Entry;)Ljava/lang/Object;" =
            "(" ++ String.join texts ++ ")" ++ r := by
  have hText : mixedSample.descriptor = .ok
      "(J[La/Outer.Inner;Lb/Map$Entry;)Ljava/lang/Object;" := rfl
  have hParams : ∀ t ∈ mixedSample.params, t.Segmented := by
    simp only [mixedSample, List.mem_cons, List.not_mem_nil,
      or_false, forall_eq_or_imp, forall_eq]
    exact ⟨trivial,
      ⟨.of_all (by decide) (by decide +kernel),
        .of_all (by decide) (by decide +kernel)⟩,
      .of_all (by decide) (by decide +kernel),
      .of_all (by decide) (by decide +kernel)⟩
  rcases descriptor_decodable.2 mixedSample _ hParams trivial hText
    with ⟨m', hRead, hLength, -, -, hSlots, -⟩
  have hParsed : parseMethodDescriptor
      "(J[La/Outer.Inner;Lb/Map$Entry;)Ljava/lang/Object;" =
        .ok (m'.params, m'.result) := by
    rcases ok_bind.mp hRead with ⟨⟨params, result⟩, hParts, hSame⟩
    cases hSame
    exact hParts
  exact ⟨hText, m', hRead, hLength, hSlots,
    descriptor_decodable.1 _ _ _ hParsed⟩

end MethodSig

------------------------------------------------------------
-- Counting Types
------------------------------------------------------------

/-
  How many types a text is cut into at most, whatever the names
  of classes in it are.  The flag is set inside a class.
-/
def pieces : Bool → List Char → Nat
  | _, [] => 0
  | true, c :: cs =>
      if c = ';' then pieces false cs + 1
      else pieces true cs
  | false, c :: cs =>
      if c = 'L' then pieces true cs
      else if c = '[' then pieces false cs
      else pieces false cs + 1

/- A mark that closes a class closes one type or more. -/
theorem pieces_closed
    (inside : Bool)
    (name rest : List Char) :
    pieces false rest + 1 ≤ pieces inside (name ++ ';' :: rest) := by
  induction name generalizing inside with
  | nil => cases inside <;> simp [pieces]
  | cons c name ih =>
      have hIn := ih true
      have hOut := ih false
      cases inside with
      | true =>
          rw [List.cons_append, pieces]
          split <;> omega
      | false =>
          rw [List.cons_append, pieces]
          split
          case isTrue => exact hIn
          case isFalse => split <;> omega

theorem Parser.pieces_segments
    {n : Nat}
    {whole cs rest : List Char}
    {make : String → List Ty → ClassTy}
    {o : ClassTy}
    (hRead : segments n true whole make cs = .ok (o, rest)) :
    pieces true cs = pieces false rest + 1 := by
  induction n generalizing make cs with
  | zero => simp [segments] at hRead
  | succ n ih =>
      rcases segments_first hRead with
        ⟨name, c, behind, rfl, hName, hSome, hStop⟩
      rw [segments_step n whole make behind hName hSome hStop]
        at hRead
      have hPassed : pieces true (name ++ c :: behind) =
          pieces true (c :: behind) := by
        clear hRead hSome
        induction name with
        | nil => rfl
        | cons d name ihName =>
            have hOther : d ≠ ';' := by
              rintro rfl
              cases hName ';' List.mem_cons_self
            rw [List.cons_append, pieces, if_neg hOther]
            exact ihName fun e he =>
              hName e (List.mem_cons_of_mem d he)
      rw [hPassed, pieces]
      dsimp only at hRead
      split at hRead
      case isTrue hEnd =>
          cases hRead
          rw [if_pos hEnd]
      case isFalse hEnd =>
          rw [if_neg hEnd]
          split at hRead
          case isTrue => exact ih hRead
          case isFalse =>
              split at hRead
              case isTrue => exact ih hRead
              case isFalse => cases hRead

/- A type that is read is one type. -/
theorem Parser.pieces_ty
    {n : Nat}
    {cs rest : List Char}
    {t : Ty}
    (hRead : ty n true cs = .ok (t, rest)) :
    pieces false cs = pieces false rest + 1 := by
  induction n generalizing cs t with
  | zero => cases hRead
  | succ n ih =>
      cases cs with
      | nil => cases hRead
      | cons c cs =>
          rcases ty_erased_cases hRead with
            ⟨p, rfl, rfl, rfl⟩ | ⟨rfl, u, rfl, hInner⟩ |
            ⟨rfl, o, rfl, hChain⟩
          · cases p <;> rfl
          · have hElement := ih hInner
            exact hElement
          · exact pieces_segments hChain

theorem Parser.pieces_parameters
    {n : Nat}
    {whole cs rest : List Char}
    {ts : List Ty}
    (hRead : parameters n whole cs = .ok (ts, rest)) :
    pieces false cs = ts.length + (pieces false rest + 1) := by
  induction n generalizing cs ts with
  | zero => cases hRead
  | succ n ih =>
      unfold parameters at hRead
      split at hRead
      case h_1 => cases hRead
      case h_2 =>
          cases hRead
          rw [List.length_nil, Nat.zero_add]
          rfl
      case h_3 =>
          simp only [ok_bind, Prod.exists] at hRead
          rcases hRead with ⟨t, behind, hFirst, us, last, hMore, hEnd⟩
          cases hEnd
          rw [pieces_ty hFirst, ih hMore, List.length_cons]
          omega

/- A type that was printed may be cut into more than one. -/
theorem Ty.pieces_le
    {t : Ty}
    {cs : List Char}
    (rest : List Char)
    (hPrinted : t.renderDescriptor = .ok cs) :
    pieces false rest + 1 ≤ pieces false (cs ++ rest) := by
  have hClass : ∀ name : List Char, pieces false rest + 1 ≤
      pieces false ('L' :: name ++ [';'] ++ rest) := by
    intro name
    rw [List.append_assoc]
    exact pieces_closed true name rest
  match t with
  | .primitive p =>
      cases hPrinted
      cases p <;> exact Nat.le_refl _
  | .array t =>
      rcases ok_bind.mp hPrinted with ⟨inner, hInner, hSame⟩
      cases hSame
      have hElement := pieces_le rest hInner
      exact hElement
  | .object c =>
      cases hPrinted
      exact hClass _
  | .variable x =>
      cases hPrinted
      exact hClass "java/lang/Object".toList
  | .argument a => cases hPrinted

theorem Ty.pieces_join_le
    {ts : List Ty}
    {texts : List String}
    (rest : List Char)
    (hTexts : ts.mapM descriptor = .ok texts) :
    pieces false rest + ts.length ≤
      pieces false ((String.join texts).toList ++ rest) := by
  induction ts generalizing texts with
  | nil =>
      cases hTexts
      exact Nat.le_refl _
  | cons t ts ih =>
      simp only [List.mapM_cons, ok_bind] at hTexts
      rcases hTexts with ⟨d, hFirst, more, hMore, hSame⟩
      cases hSame
      have hRest := ih hMore
      have hHere := pieces_le ((String.join more).toList ++ rest)
        (descriptor_eq_ok.mp hFirst)
      rw [String.toList_join] at hRest hHere ⊢
      rw [List.flatMap_cons, List.append_assoc, List.length_cons]
      omega

/- Nothing but the mark of no value ends like that mark. -/
theorem Ty.isVoid_of_suffix
    {t : Ty}
    {c : Char}
    {cs : List Char}
    (hPrinted : t.renderDescriptor = .ok cs)
    (hEnd : [')', 'V'] <:+ c :: cs) :
    c = ')' ∧ t.isVoid = true := by
  have hClass : ∀ name : List Char,
      ¬ [')', 'V'] <:+ c :: ('L' :: name ++ [';']) := by
    rintro name ⟨front, hWhole⟩
    have hLast := congrArg List.getLast? hWhole
    simp [List.getLast?_cons] at hLast
  match t with
  | .primitive p =>
      cases hPrinted
      have hSame := hEnd.eq_of_length rfl
      rw [List.cons.injEq, List.cons.injEq] at hSame
      refine ⟨hSame.1.symm, ?_⟩
      cases p with
      | void => rfl
      | _ => exact absurd hSame.2.1 (by decide)
  | .array t =>
      rcases ok_bind.mp hPrinted with ⟨inner, hInner, hSame⟩
      cases hSame
      rcases slots_of_renderDescriptor hInner with ⟨d, more, rfl, -⟩
      have hBehind := List.suffix_of_suffix_length_le hEnd
        (List.suffix_cons c ('[' :: d :: more)) (by simp)
      rcases isVoid_of_suffix hInner hBehind with ⟨hOpen, -⟩
      exact absurd hOpen (by decide)
  | .object o =>
      cases hPrinted
      exact absurd hEnd (hClass _)
  | .variable x =>
      cases hPrinted
      exact absurd hEnd (hClass "java/lang/Object".toList)
  | .argument a => cases hPrinted

namespace MethodSig

/-
  A descriptor that is read has the parameters that it was made
  of, or more if a name in it has a mark of the format.
-/
theorem length_le_of_parse
    {m : MethodSig}
    {d : String}
    {params : List Ty}
    {result : Ty}
    (hText : m.descriptor = .ok d)
    (hReads : parseMethodDescriptor d = .ok (params, result)) :
    m.params.length ≤ params.length := by
  simp only [descriptor, ok_bind] at hText
  rcases hText with ⟨texts, hTexts, r, hResult, hWhole⟩
  have hRead : pieces false d.toList = params.length + 3 := by
    rcases parts_of_parse hReads with
      ⟨inside, behind, hOpen, hParams, hLast⟩
    have hInside := Parser.pieces_parameters hParams
    have hBehind := Parser.pieces_ty hLast
    have hStart : pieces false d.toList =
        pieces false inside + 1 := by
      rw [hOpen]
      rfl
    have hEnd : pieces false [] = 0 := rfl
    omega
  have hMade : m.params.length + 3 ≤ pieces false d.toList := by
    cases hWhole
    have hParams := Ty.pieces_join_le (')' :: r.toList) hTexts
    have hLast := Ty.pieces_le [] (Ty.descriptor_eq_ok.mp hResult)
    have hCharacters : ("(" ++ String.join texts ++ ")" ++ r).toList =
        '(' :: ((String.join texts).toList ++ ')' :: r.toList) := by
      simp
    have hStart : pieces false
        ('(' :: ((String.join texts).toList ++ ')' :: r.toList)) =
          pieces false
            ((String.join texts).toList ++ ')' :: r.toList) + 1 :=
      rfl
    have hClose : pieces false (')' :: r.toList) =
        pieces false r.toList + 1 := rfl
    rw [List.append_nil] at hLast
    rw [hCharacters]
    omega
  omega

/- A method is read as one without a value only if it has none. -/
theorem isVoid_of_parse
    {m : MethodSig}
    {d : String}
    {params : List Ty}
    {result : Ty}
    (hText : m.descriptor = .ok d)
    (hReads : parseMethodDescriptor d = .ok (params, result))
    (hVoid : result.isVoid = true) :
    m.result.isVoid = true := by
  simp only [descriptor, ok_bind] at hText
  rcases hText with ⟨texts, -, r, hResult, hWhole⟩
  rcases parseMethodDescriptor_exact hReads with
    ⟨others, e, -, hLast, hSame⟩
  have hMark : e = "V" := by
    cases result with
    | primitive p => 
        cases p <;> cases hVoid
        cases hLast
        rfl
    | _ => cases hVoid
  have hPrinted := Ty.descriptor_eq_ok.mp hResult
  rcases Ty.slots_of_renderDescriptor hPrinted with ⟨c, more, hText, -⟩
  refine (Ty.isVoid_of_suffix (c := ')') hPrinted ?_).2
  have hEnd : [')', 'V'] <:+ d.toList := by
    rw [hSame, hMark]
    exact ⟨'(' :: (String.join others).toList, by simp⟩
  cases hWhole
  refine List.suffix_of_suffix_length_le hEnd
    ⟨("(" ++ String.join texts).toList, by simp⟩ ?_
  rw [hText]
  simp

end MethodSig

end Jvm

end Stratagem

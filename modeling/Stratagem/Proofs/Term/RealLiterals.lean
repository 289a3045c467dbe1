import Stratagem.Proofs.Term.Acceptance

/-
  The real literals of a text.

  A text can be searched for numbers without being read as a
  term: a string is passed over up to its closing quote, a
  name to its last character, and a number is as long as it
  can be.  In a text that spells a term, the numbers found
  with a point or an exponent are the reals of the term, from
  the first to the last.

  Key definitions include:
    * `Grammar.numerals`
    * `Grammar.realLiterals`
    * `Term.reals`

  Main declarations:
    * `Grammar.numerals_number`
    * `Grammar.spells_reals`
    * `Term.reals_of_read`
-/

namespace Stratagem

open Reader (Stops prolongs)

namespace Grammar

------------------------------------------------------------
-- Searching a Text
------------------------------------------------------------

/- A mark with the digits behind it, if there is one. -/
def markedAt
    (p : Char → Bool) :
    List Char → Option (Char × List Char) × List Char
  | [] => (none, [])
  | c :: cs =>
      if p c then
        (some (c, cs.takeWhile Char.isDigit),
          cs.dropWhile Char.isDigit)
      else
        (none, c :: cs)

/- The longest number behind a sign, and what follows it. -/
def numeralAt
    (negative : Bool)
    (cs : List Char) : Numeral × List Char :=
  let fraction := markedAt (· == '.') (cs.dropWhile Char.isDigit)
  let exponent := markedAt Reader.isScale fraction.2
  (⟨negative, cs.takeWhile Char.isDigit, fraction.1.map Prod.snd,
    exponent.1⟩, exponent.2)

/- What follows a string that is open. -/
def behindString : List Char → List Char
  | [] => []
  | '"' :: cs => cs
  | '\\' :: _ :: cs => behindString cs
  | _ :: cs => behindString cs

theorem length_markedAt_le
    (p : Char → Bool)
    (cs : List Char) :
    (markedAt p cs).2.length ≤ cs.length := by
  cases cs with
  | nil => exact Nat.le_refl 0
  | cons c cs =>
      rw [markedAt]
      split
      case isTrue =>
          exact Nat.le_succ_of_le (List.length_dropWhile_le _ cs)
      case isFalse => exact Nat.le_refl _

theorem length_numeralAt_le
    (negative : Bool)
    (cs : List Char) :
    (numeralAt negative cs).2.length ≤ cs.length :=
  (length_markedAt_le _ _).trans
    ((length_markedAt_le _ _).trans (List.length_dropWhile_le _ cs))

/- Where a number starts, some of it is found. -/
theorem length_numeralAt_lt
    {c : Char}
    (negative : Bool)
    (cs : List Char)
    (hStart : Term.startsNumber c = true) :
    (numeralAt negative (c :: cs)).2.length < (c :: cs).length := by
  refine Nat.lt_of_le_of_lt (length_markedAt_le _ _) ?_
  by_cases hDigit : c.isDigit = true
  · rw [List.dropWhile_cons_of_pos hDigit]
    exact Nat.lt_succ_of_le ((length_markedAt_le _ _).trans
      (List.length_dropWhile_le _ cs))
  · have hPoint : (c == '.') = true := by
      rw [Term.startsNumber, Bool.or_eq_true] at hStart
      exact hStart.resolve_right hDigit
    rw [List.dropWhile_cons_of_neg hDigit, markedAt, if_pos hPoint]
    exact Nat.lt_succ_of_le (List.length_dropWhile_le _ cs)

theorem length_behindString_le
    (cs : List Char) :
    (behindString cs).length ≤ cs.length := by
  fun_induction behindString cs with
  | case1 => exact Nat.le_refl 0
  | case2 cs => exact Nat.le_succ _
  | case3 c cs ih => exact Nat.le_succ_of_le (Nat.le_succ_of_le ih)
  | case4 c cs _ _ ih => exact Nat.le_succ_of_le ih

/- The numbers of a text, outside of its strings and names. -/
def numerals
    (cs : List Char) : List Numeral :=
  match cs with
  | [] => []
  | c :: cs =>
      if c = '"' then
        numerals (behindString cs)
      else if Term.startsNumber c then
        (numeralAt false (c :: cs)).1 ::
          numerals (numeralAt false (c :: cs)).2
      else if c = '-' ∧ cs.head?.any Term.startsNumber then
        (numeralAt true cs).1 :: numerals (numeralAt true cs).2
      else if Term.isNameStart c then
        numerals (cs.dropWhile Term.isNameChar)
      else
        numerals cs
termination_by cs.length
decreasing_by
  · exact Nat.lt_succ_of_le (length_behindString_le cs)
  · exact length_numeralAt_lt false cs ‹_›
  · exact Nat.lt_succ_of_le (length_numeralAt_le true cs)
  · exact Nat.lt_succ_of_le (List.length_dropWhile_le _ cs)
  · exact Nat.lt_succ_self _

/- Numbers with a point or an exponent are reals. -/
def Numeral.isReal
    (x : Numeral) : Bool :=
  x.fraction.isSome || x.exponent.isSome

/- The numbers of a text that are reals. -/
def realLiterals
    (cs : List Char) : List Numeral :=
  (numerals cs).filter Numeral.isReal

/- What they stand for. -/
def realValues
    (cs : List Char) : List Binary64 :=
  (realLiterals cs).map Numeral.nearest

------------------------------------------------------------
-- Tokens
------------------------------------------------------------

/- Characters that no number, name or string starts with. -/
def Inert
    (c : Char) : Prop :=
  c ≠ '"' ∧ Term.startsNumber c = false ∧
    Term.isNameStart c = false

instance
    (c : Char) :
    Decidable (Inert c) :=
  inferInstanceAs (Decidable (_ ∧ _))

theorem numerals_inert
    {c : Char}
    (cs : List Char)
    (hInert : Inert c) :
    numerals (c :: cs) = numerals cs := by
  rcases hInert with ⟨hQuote, hNumber, hName⟩
  rw [numerals, if_neg hQuote, hNumber, hName]
  have hDash : ¬ (c = '-' ∧
      cs.head?.any Term.startsNumber = true) := by
    rintro ⟨rfl, -⟩
    exact absurd hName (by decide)
  rw [if_neg Bool.false_ne_true, if_neg hDash,
    if_neg Bool.false_ne_true]

theorem inert_of_isBlank
    {c : Char}
    (hBlank : Text.isBlank c = true) :
    Inert c := by
  have hChar := Term.isNameChar_of_isBlank hBlank
  refine ⟨?_, ?_, ?_⟩
  · rintro rfl
    exact absurd hBlank (by decide)
  · rw [Term.startsNumber, Bool.or_eq_false_iff,
      beq_eq_false_iff_ne]
    refine ⟨?_, Reader.isDigit_of_not_isNameChar hChar⟩
    rintro rfl
    exact absurd hBlank (by decide)
  · rw [Bool.eq_false_iff]
    intro hStart
    rw [Term.isNameChar_of_isNameStart hStart] at hChar
    cases hChar

theorem numerals_blanks
    {blanks : List Char}
    (rest : List Char)
    (hBlanks : Blanks blanks) :
    numerals (blanks ++ rest) = numerals rest := by
  induction blanks with
  | nil => rfl
  | cons c blanks ih =>
      unfold Blanks at hBlanks
      rw [List.forall_mem_cons] at hBlanks
      rw [List.cons_append,
        numerals_inert _ (inert_of_isBlank hBlanks.1),
        ih hBlanks.2]

/- Characters without a meaning of their own are passed over. -/
theorem behindString_append
    {cs : List Char}
    (rest : List Char)
    (hPlain : ∀ c ∈ cs, c ≠ '"' ∧ c ≠ '\\') :
    behindString (cs ++ rest) = behindString rest := by
  induction cs with
  | nil => rfl
  | cons c cs ih =>
      rw [List.forall_mem_cons] at hPlain
      rw [List.cons_append, behindString, ih hPlain.2]
      · exact hPlain.1.1
      · exact fun _ _ hSlash => absurd hSlash hPlain.1.2

/- A string ends at the quote that closes it. -/
theorem behindString_quoted
    {cs s : List Char}
    (rest : List Char)
    (hQuoted : Quoted cs s) :
    behindString (cs ++ '"' :: rest) = rest := by
  induction hQuoted with
  | nil => rfl
  | @plain c cs _ hQuote hEscape _ ih =>
      have hPlain : ∀ d ∈ [c], d ≠ '"' ∧ d ≠ '\\' := by
        rw [List.forall_mem_singleton]
        exact ⟨hQuote, hEscape⟩
      exact (behindString_append _ hPlain).trans ih
  | letter _ _ ih => exact ih
  | @code _ _ _ _ digits cs _ _ hHex _ _ _ _ _ ih =>
      change behindString (digits ++ cs ++ '"' :: rest) = rest
      rw [List.append_assoc, behindString_append, ih]
      intro d hDigit
      constructor
      · rintro rfl
        exact absurd (hHex _ hDigit) (by decide)
      · rintro rfl
        exact absurd (hHex _ hDigit) (by decide)

theorem numerals_string
    {cs s : List Char}
    (rest : List Char)
    (hQuoted : Quoted cs s) :
    numerals ('"' :: (cs ++ '"' :: rest)) = numerals rest := by
  rw [numerals, if_pos rfl, behindString_quoted rest hQuoted]

theorem numerals_name
    {name rest : List Char}
    (hName : Identifier name)
    (hStops : Stops prolongs rest) :
    numerals (name ++ rest) = numerals rest := by
  have hEnd : Stops Term.isNameChar rest := by
    intro d hHead
    have hStop := hStops d hHead
    rw [prolongs, Bool.or_eq_false_iff] at hStop
    exact hStop.1
  cases hName with
  | @mk c cs hStart hOthers hNumber =>
      have hQuote : c ≠ '"' := by
        rintro rfl
        exact absurd hStart (by decide)
      have hDash := Reader.not_negative_of_identifier
        (.mk hStart hOthers hNumber) hStops
      rw [List.cons_append, numerals, if_neg hQuote,
        Reader.startsNumber_of_isNameStart hStart,
        if_neg Bool.false_ne_true, if_neg hDash, if_pos hStart,
        (Reader.takeWhile_append_of_stops hOthers hEnd).2]

------------------------------------------------------------
-- Numbers
------------------------------------------------------------

/- A mark is found with all its digits. -/
theorem markedAt_markedText
    {o : Option (Char × List Char)}
    {p : Char → Bool}
    {rest : List Char}
    (hMark : ∀ m ∈ o.map Prod.fst, p m = true)
    (hDigits : Digits ((o.map Prod.snd).getD []))
    (hEnd : Stops p rest)
    (hStops : Stops Char.isDigit rest) :
    markedAt p (Reader.markedText o ++ rest) = (o, rest) := by
  cases o with
  | none =>
      cases rest with
      | nil => rfl
      | cons c rest =>
          change markedAt p (c :: rest) = _
          rw [markedAt, hEnd c rfl, if_neg Bool.false_ne_true]
  | some part =>
      have hTaken :=
        Reader.takeWhile_append_of_stops hDigits hStops
      have hIs : p part.1 = true := hMark part.1 rfl
      change markedAt p (part.1 :: (part.2 ++ rest)) = _
      rw [markedAt, if_pos hIs]
      exact Prod.ext
        (congrArg (fun ds => some (part.1, ds)) hTaken.1) hTaken.2

/- A number is found with all its parts. -/
theorem numeralAt_body
    {x : Numeral}
    {rest : List Char}
    (hLegal : x.Legal)
    (hStops : Stops prolongs rest) :
    numeralAt x.negative (x.body ++ rest) = (x, rest) := by
  rcases hStops.of_prolongs with ⟨hNoDigit, -, hNoScale⟩
  rcases Reader.stops_parts hLegal hStops with
    ⟨hPointedDigit, hScaledPoint, hScaledDigit, hScale⟩
  have hInts :=
    Reader.takeWhile_append_of_stops hLegal.ints hPointedDigit
  have hFraction := markedAt_markedText (p := (· == '.'))
    (fun m hm => beq_iff_eq.mpr (Reader.point_of_pointed x m hm))
    (by rw [Reader.digits_of_pointed]; exact hLegal.fraction)
    hScaledPoint hScaledDigit
  have hExponent := markedAt_markedText hScale hLegal.exponent
    hNoScale hNoDigit
  have hDigits : (Reader.pointed x).map Prod.snd = x.fraction := by
    rw [Reader.pointed, Option.map_map]
    exact Option.map_id'
  rw [Reader.body_append, numeralAt, hInts.1, hInts.2, hFraction,
    hExponent, hDigits]

theorem numerals_number
    {x : Numeral}
    {rest : List Char}
    (hLegal : x.Legal)
    (hStops : Stops prolongs rest) :
    numerals (x.text ++ rest) = x :: numerals rest := by
  rcases Reader.body_starts hLegal with ⟨c, more, hBody, hStart⟩
  have hFound := numeralAt_body hLegal hStops
  have hQuote : c ≠ '"' := by
    rintro rfl
    exact absurd hStart (by decide)
  rw [hBody, List.cons_append] at hFound
  cases hNegative : x.negative with
  | true =>
      have hText : x.text ++ rest = '-' :: c :: (more ++ rest) := by
        simp [Numeral.text, Numeral.sign, hNegative, hBody]
      rw [hNegative] at hFound
      rw [hText, numerals, if_neg (by decide), if_neg (by decide),
        if_pos ⟨rfl, hStart⟩, hFound]
  | false =>
      have hText : x.text ++ rest = c :: (more ++ rest) := by
        simp [Numeral.text, Numeral.sign, hNegative, hBody]
      rw [hNegative] at hFound
      rw [hText, numerals, if_neg hQuote, if_pos hStart, hFound]

end Grammar

------------------------------------------------------------
-- The Reals of a Term
------------------------------------------------------------

mutual

/- All reals of a term, as they are written one after another. -/
def Term.reals : Term → List Binary64
  | .mk p a => Payload.reals p ++ Attachments.reals a

def Payload.reals : Payload → List Binary64
  | .real value => [value]
  | .appl _ args => realsIn args
  | .list elements => realsIn elements
  | .placeholder template => Term.reals template
  | _ => []

def Attachments.reals : Attachments → List Binary64
  | .mk (some ts) _ => realsIn ts
  | .mk none _ => []

def realsIn : List Term → List Binary64
  | [] => []
  | t :: ts => Term.reals t ++ realsIn ts

end

theorem Term.reals_plain
    (p : Payload) :
    (Term.plain p).reals = p.reals := by
  rw [plain, Attachments.empty, Term.reals, Attachments.reals,
    List.append_nil]

theorem Term.reals_annotated
    (p : Payload)
    (ts : List Term) :
    ((Term.plain p).annotated ts).reals = p.reals ++ realsIn ts := by
  cases ts with
  | nil =>
      change (Term.plain p).reals = _
      rw [reals_plain, realsIn, List.append_nil]
  | cons t ts => rfl

namespace Grammar

/- Texts with the same numbers have the same reals. -/
theorem realValues_congr
    {cs ds : List Char}
    (hSame : numerals cs = numerals ds) :
    realValues cs = realValues ds := by
  rw [realValues, realLiterals, hSame]
  rfl

theorem realValues_inert
    {c : Char}
    (cs : List Char)
    (hInert : Inert c) :
    realValues (c :: cs) = realValues cs :=
  realValues_congr (numerals_inert cs hInert)

theorem realValues_blanks
    {blanks : List Char}
    (rest : List Char)
    (hBlanks : Blanks blanks) :
    realValues (blanks ++ rest) = realValues rest :=
  realValues_congr (numerals_blanks rest hBlanks)

/- A mark behind blanks. -/
theorem realValues_mark
    {gap : List Char}
    {mark : Char}
    (rest : List Char)
    (hGap : Blanks gap)
    (hInert : Inert mark) :
    realValues (gap ++ mark :: rest) = realValues rest := by
  rw [realValues_blanks _ hGap, realValues_inert rest hInert]

/- A number is a real if it denotes one. -/
theorem realValues_number
    {x : Numeral}
    {p : Payload}
    {rest : List Char}
    (hLegal : x.Legal)
    (hDenotes : x.Denotes p)
    (hStops : Stops prolongs rest) :
    realValues (x.text ++ rest) = p.reals ++ realValues rest := by
  rw [realValues, realLiterals, numerals_number hLegal hStops]
  cases hDenotes with
  | int value hNoFraction hNoExponent _ =>
      have hNot : ¬ x.isReal = true := by
        simp [Numeral.isReal, hNoFraction, hNoExponent]
      rw [List.filter_cons_of_neg hNot]
      rfl
  | real hShown =>
      have hIs : x.isReal = true := by
        simpa [Numeral.isReal, Option.isSome_iff_ne_none]
          using hShown
      rw [List.filter_cons_of_pos hIs]
      rfl

/- Neither a name nor a number goes on behind a mark. -/
theorem stops_mark
    {gap : List Char}
    {mark : Char}
    (rest : List Char)
    (hGap : Blanks gap)
    (hBlank : Text.isBlank mark = false)
    (hMark : prolongs mark = false) :
    Stops prolongs (gap ++ mark :: rest) :=
  (Reader.follows_mark rest hGap hBlank
    (List.mem_singleton_self mark)).stops_prolongs
      (by simp [hMark])

mutual

/- In a text that spells a term, its reals are found in order. -/
theorem spells_reals
    {cs rest : List Char}
    {t : Term}
    (hSpells : Spells cs t)
    (hStops : Stops prolongs rest) :
    realValues (cs ++ rest) = t.reals ++ realValues rest := by
  match hSpells with
  | .plain hBefore hCore =>
      rw [List.append_assoc, realValues_blanks _ hBefore,
        spellsCore_reals hCore hStops, Term.reals_plain]
  | .annotated hBefore hCore hGap hTerms hGap' =>
      simp only [List.append_assoc, List.cons_append,
        List.nil_append]
      rw [realValues_blanks _ hBefore,
        spellsCore_reals hCore
          (stops_mark _ hGap (by decide) (by decide)),
        realValues_mark _ hGap (by decide),
        spellsTerms_reals hTerms
          (stops_mark _ hGap' (by decide) (by decide)),
        realValues_mark _ hGap' (by decide),
        Term.reals_annotated, List.append_assoc]

theorem spellsCore_reals
    {cs rest : List Char}
    {p : Payload}
    (hSpells : SpellsCore cs p)
    (hStops : Stops prolongs rest) :
    realValues (cs ++ rest) = p.reals ++ realValues rest := by
  match hSpells with
  | .list hTerms hGap =>
      simp only [List.append_assoc, List.cons_append,
        List.nil_append]
      rw [realValues_inert _ (by decide),
        spellsTerms_reals hTerms
          (stops_mark _ hGap (by decide) (by decide)),
        realValues_mark _ hGap (by decide), Payload.reals]
  | .tuple hTerms hGap =>
      simp only [List.append_assoc, List.cons_append,
        List.nil_append]
      rw [realValues_inert _ (by decide),
        spellsTerms_reals hTerms
          (stops_mark _ hGap (by decide) (by decide)),
        realValues_mark _ hGap (by decide), Payload.reals]
  | .application hName hGap hTerms hGap' =>
      simp only [List.append_assoc, List.cons_append,
        List.nil_append]
      rw [realValues_congr (numerals_name hName
          (stops_mark _ hGap (by decide) (by decide))),
        realValues_mark _ hGap (by decide),
        spellsTerms_reals hTerms
          (stops_mark _ hGap' (by decide) (by decide)),
        realValues_mark _ hGap' (by decide), Payload.reals]
  | .constant hName =>
      exact realValues_congr (numerals_name hName hStops)
  | .string hQuoted =>
      simp only [List.append_assoc, List.cons_append,
        List.nil_append]
      exact realValues_congr (numerals_string rest hQuoted)
  | .placeholder hTemplate hGap =>
      simp only [List.append_assoc, List.cons_append,
        List.nil_append]
      rw [realValues_inert _ (by decide),
        spells_reals hTemplate
          (stops_mark _ hGap (by decide) (by decide)),
        realValues_mark _ hGap (by decide), Payload.reals]
  | .number hLegal hDenotes =>
      exact realValues_number hLegal hDenotes hStops

theorem spellsTerms_reals
    {cs rest : List Char}
    {ts : List Term}
    (hSpells : SpellsTerms cs ts)
    (hStops : Stops prolongs rest) :
    realValues (cs ++ rest) = realsIn ts ++ realValues rest := by
  match hSpells with
  | .none => rfl
  | .some hSome => exact spellsSome_reals hSome hStops

theorem spellsSome_reals
    {cs rest : List Char}
    {ts : List Term}
    (hSpells : SpellsSome cs ts)
    (hStops : Stops prolongs rest) :
    realValues (cs ++ rest) = realsIn ts ++ realValues rest := by
  match hSpells with
  | .one hOnly =>
      rw [spells_reals hOnly hStops, realsIn, realsIn,
        List.append_nil]
  | .more hFirst hComma hOthers =>
      simp only [List.append_assoc, List.cons_append]
      rw [spells_reals hFirst
          (stops_mark _ hComma (by decide) (by decide)),
        realValues_mark _ hComma (by decide),
        spellsSome_reals hOthers hStops, realsIn, List.append_assoc]

end

end Grammar

/- The reals of a term that is read are those of its text. -/
theorem Term.reals_of_read
    {s : String}
    {t : Term}
    (hRead : Term.read s = .ok t) :
    t.reals = Grammar.realValues s.toList := by
  have hSpells := spellsText_of_read hRead
  generalize s.toList = text at hSpells
  cases hSpells with
  | @mk cs blanks _ hTerm hBehind =>
      have hFollows : Reader.Follows [] (blanks ++ []) := by
        intro c hHead
        rw [Reader.dropWhile_blanks hBehind] at hHead
        cases hHead
      have hStops : Stops prolongs (blanks ++ []) :=
        hFollows.stops_prolongs rfl
      have hNone : Grammar.realValues (blanks ++ []) = [] := by
        rw [Grammar.realValues_blanks [] hBehind,
          Grammar.realValues, Grammar.realLiterals,
          Grammar.numerals]
        rfl
      rw [List.append_nil] at hStops hNone
      rw [Grammar.spells_reals hTerm hStops, hNone, List.append_nil]

end Stratagem

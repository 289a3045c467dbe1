import Mathlib.Data.List.DropRight
import Stratagem.Proofs.Term.Derivation

/-
  What can be derived is read, so that reading accepts exactly
  the texts of the grammar.

  The reader takes the longest name, the most digits and all
  blanks.  A derivation does so too, because no term can be
  followed by a character that would have prolonged it: behind
  a term stand blanks, a closing character, a comma or
  nothing.

  Key definitions include:
    * `Reader.Follows`
    * `Reader.Ends`

  Main declarations:
    * `Term.isNameChar_of_isBlank`
    * `Reader.number_accepts`
    * `Reader.stringBody_accepts`
    * `Reader.term_accepts`
    * `Term.read_iff_spellsText`
-/

namespace Stratagem

open Grammar

------------------------------------------------------------
-- Characters
------------------------------------------------------------

namespace Text

/- Sets of characters that do not meet. -/
theorem Ranges.not_contains_of_disjoint
    {rs qs : Ranges}
    (hDisjoint : ∀ r ∈ rs, ∀ q ∈ qs, r.2 < q.1 ∨ q.2 < r.1)
    {c : Char}
    (hIn : rs.contains c = true) :
    qs.contains c = false := by
  unfold Ranges.contains at *
  rw [Bool.eq_false_iff]
  intro hAlso
  rw [List.any_eq_true] at hIn hAlso
  rcases hIn with ⟨r, hr, hInside⟩
  rcases hAlso with ⟨q, hq, hBoth⟩
  simp only [Bool.and_eq_true, decide_eq_true_eq] at hInside hBoth
  rcases hDisjoint r hr q hq with hLess | hLess
  · omega
  · omega

/- A fact about characters of seven bits can be computed. -/
theorem of_ascii
    {P : Char → Prop}
    (hAll : ∀ n < 128, P (Char.ofNat n))
    {c : Char}
    (hAscii : c.toNat < 128) :
    P c := by
  rw [← Char.ofNat_toNat c]
  exact hAll c.toNat hAscii

/-
  A class of characters that does not meet the blanks: by one
  test for seven bits, and by a table for the others.
-/
theorem not_of_isBlank
    {test : Char → Bool}
    {table : Ranges}
    (hShort : ∀ n < 128, isBlank (Char.ofNat n) = true →
      test (Char.ofNat n) = false)
    (hLong : ∀ r ∈ blanks, ∀ q ∈ table, r.2 < q.1 ∨ q.2 < r.1)
    {c : Char}
    (hBlank : isBlank c = true) :
    (if c.toNat < 0x80 then test c else table.contains c) = false := by
  split
  case isTrue hAscii =>
      revert hBlank
      exact of_ascii
        (P := fun c => isBlank c = true → test c = false) hShort hAscii
  case isFalse =>
      exact Ranges.not_contains_of_disjoint hLong hBlank

theorem isLetter_of_isBlank
    {c : Char}
    (hBlank : isBlank c = true) :
    isLetter c = false :=
  not_of_isBlank (by decide +kernel) (by decide +kernel) hBlank

theorem isNumeral_of_isBlank
    {c : Char}
    (hBlank : isBlank c = true) :
    isNumeral c = false :=
  not_of_isBlank (by decide +kernel) (by decide +kernel) hBlank

end Text

namespace Term

/- A blank ends a name. -/
theorem isNameChar_of_isBlank
    {c : Char}
    (hBlank : Text.isBlank c = true) :
    isNameChar c = false := by
  have hSign : isNameSign c = false := by
    rw [Bool.eq_false_iff]
    intro hIs
    simp only [isNameSign, Bool.or_eq_true, beq_iff_eq, or_assoc]
      at hIs
    rcases hIs with rfl | rfl | rfl | rfl | rfl
    all_goals exact absurd hBlank (by decide)
  unfold isNameChar
  rw [Text.isLetter_of_isBlank hBlank,
    Text.isNumeral_of_isBlank hBlank, hSign]
  rfl

theorem isNameChar_of_isNameStart
    {c : Char}
    (hStart : isNameStart c = true) :
    isNameChar c = true := by
  unfold isNameStart at hStart
  unfold isNameChar
  rw [Bool.or_eq_true] at hStart
  rcases hStart with hLetter | hSign
  · simp [hLetter]
  · simp [hSign]

theorem toNat_of_isDigit
    {c : Char}
    (hDigit : c.isDigit = true) :
    c.toNat < 128 := by
  unfold Char.isDigit at hDigit
  simp only [Bool.and_eq_true, decide_eq_true_eq, ge_iff_le,
    UInt32.le_iff_toNat_le] at hDigit
  have hHigh : c.val.toNat ≤ 57 := hDigit.2
  exact Nat.lt_of_le_of_lt hHigh (by decide)

/- Digits may stand in names, but not first. -/
theorem isNameChar_of_isDigit
    {c : Char}
    (hDigit : c.isDigit = true) :
    isNameChar c = true ∧ isNameStart c = false ∧
      Text.isBlank c = false := by
  have hAscii := toNat_of_isDigit hDigit
  revert hDigit
  exact Text.of_ascii
    (P := fun c => c.isDigit = true → isNameChar c = true ∧
      isNameStart c = false ∧ Text.isBlank c = false)
    (by decide +kernel) hAscii

end Term

namespace Reader

------------------------------------------------------------
-- What Follows
------------------------------------------------------------

/- Characters that can stand behind a term. -/
def closers : List Char :=
  [',', ']', ')', '\x7d', '>']

/- Behind blanks stands one of some characters, or nothing. -/
def Follows
    (marks rest : List Char) : Prop :=
  ∀ c, (rest.dropWhile Text.isBlank).head? = some c → c ∈ marks

/- Nothing at the start of a text goes on with a class. -/
def Stops
    (p : Char → Bool)
    (rest : List Char) : Prop :=
  ∀ c, rest.head? = some c → p c = false

theorem Follows.mono
    {marks more rest : List Char}
    (hFollows : Follows marks rest)
    (hMarks : ∀ c ∈ marks, c ∈ more) :
    Follows more rest :=
  fun c hHead => hMarks c (hFollows c hHead)

/- Blanks and marks behind a term do not go on with it. -/
theorem Follows.stops
    {marks rest : List Char}
    {p : Char → Bool}
    (hFollows : Follows marks rest)
    (hMarks : ∀ c ∈ marks, p c = false)
    (hBlanks : ∀ c, Text.isBlank c = true → p c = false) :
    Stops p rest := by
  intro c hHead
  by_cases hBlank : Text.isBlank c = true
  · exact hBlanks c hBlank
  · apply hMarks
    apply hFollows
    rcases List.head?_eq_some_iff.mp hHead with ⟨tail, rfl⟩
    rw [List.dropWhile_cons_of_neg hBlank]
    rfl

/- A run of a class is taken whole when the class stops there. -/
theorem takeWhile_append_of_stops
    {p : Char → Bool}
    {cs rest : List Char}
    (hAll : ∀ c ∈ cs, p c = true)
    (hStops : Stops p rest) :
    (cs ++ rest).takeWhile p = cs ∧
      (cs ++ rest).dropWhile p = rest := by
  induction cs with
  | nil =>
      cases rest with
      | nil => exact ⟨rfl, rfl⟩
      | cons c rest =>
          have hStop := hStops c rfl
          simp [hStop]
  | cons c cs ih =>
      have hClass := hAll c List.mem_cons_self
      rcases ih fun d hd => hAll d (List.mem_cons_of_mem c hd) with
        ⟨hTake, hDrop⟩
      simp [hClass, hTake, hDrop]

------------------------------------------------------------
-- Numbers
------------------------------------------------------------

theorem isDigit_of_not_isNameChar
    {c : Char}
    (hNone : Term.isNameChar c = false) :
    c.isDigit = false := by
  rw [Bool.eq_false_iff] at hNone ⊢
  intro hDigit
  exact hNone (Term.isNameChar_of_isDigit hDigit).1

/- Characters that go on with a name or a number. -/
def prolongs
    (c : Char) : Bool :=
  Term.isNameChar c || c == '.'

/- Whatever ends names and numbers ends each part of a number. -/
theorem Stops.of_prolongs
    {rest : List Char}
    (hStops : Stops prolongs rest) :
    Stops Char.isDigit rest ∧ Stops (· == '.') rest ∧
      Stops isScale rest := by
  have hAll : ∀ c, rest.head? = some c →
      c.isDigit = false ∧ (c == '.') = false ∧ isScale c = false := by
    intro c hHead
    have hStop := hStops c hHead
    rw [prolongs, Bool.or_eq_false_iff] at hStop
    refine ⟨isDigit_of_not_isNameChar hStop.1, hStop.2, ?_⟩
    rw [isScale, Bool.or_eq_false_iff, beq_eq_false_iff_ne,
      beq_eq_false_iff_ne]
    constructor
    · rintro rfl
      exact absurd hStop.1 (by decide)
    · rintro rfl
      exact absurd hStop.1 (by decide)
  exact ⟨fun c hHead => (hAll c hHead).1,
    fun c hHead => (hAll c hHead).2.1,
    fun c hHead => (hAll c hHead).2.2⟩

theorem stops_marked
    {o : Option (Char × List Char)}
    {p : Char → Bool}
    {rest : List Char}
    (hMark : ∀ m ∈ o.map Prod.fst, p m = false)
    (hRest : Stops p rest) :
    Stops p (markedText o ++ rest) := by
  cases o with
  | none => exact hRest
  | some part =>
      intro c hHead
      have hOther := hMark part.1 rfl
      rw [← Option.some.inj hHead]
      exact hOther

/- A part is read if its mark is there, up to its last digit. -/
theorem marked_accepts
    {o : Option (Char × List Char)}
    {p : Char → Bool}
    {c : Cursor}
    {rest : List Char}
    (hRest : c.rest = markedText o ++ rest)
    (hMark : ∀ m ∈ o.map Prod.fst, p m = true)
    (hDigits : Digits ((o.map Prod.snd).getD []))
    (hEnd : Stops p rest)
    (hStops : Stops Char.isDigit rest) :
    c.rest.head?.any p = o.isSome ∧
      (if o.isSome then c.next.taken Char.isDigit else []) =
        (o.map Prod.snd).getD [] ∧
      (if o.isSome then c.next.skip Char.isDigit else c).rest =
        rest := by
  cases o with
  | none =>
      refine ⟨?_, rfl, hRest⟩
      change c.rest = rest at hRest
      rw [hRest]
      cases hHead : rest.head? with
      | none => rfl
      | some d => exact hEnd d hHead
  | some part =>
      have hNext : c.next.rest = part.2 ++ rest :=
        Cursor.rest_next hRest
      have hTaken := takeWhile_append_of_stops hDigits hStops
      refine ⟨?_, ?_, ?_⟩
      · rw [hRest]
        exact hMark part.1 rfl
      · change c.next.rest.takeWhile Char.isDigit = _
        rw [hNext]
        exact hTaken.1
      · change c.next.rest.dropWhile Char.isDigit = _
        rw [hNext]
        exact hTaken.2

theorem integer_accepts
    {negative : Bool}
    {digits : List Char}
    {value : Int64}
    (hValue : value.toInt =
      if negative then -(decimalValue digits : Int)
        else decimalValue digits) :
    integer negative digits = .ok (.int value) := by
  unfold integer
  dsimp only
  rw [← hValue, if_pos ⟨value.minValue_le_toInt, value.toInt_le⟩,
    Int64.ofInt_toInt]

/- The fraction of a numeral, with its point. -/
def pointed
    (x : Numeral) : Option (Char × List Char) :=
  x.fraction.map ('.', ·)

theorem point_of_pointed
    (x : Numeral) :
    ∀ m ∈ (pointed x).map Prod.fst, m = '.' := by
  intro m hm
  rw [pointed, Option.map_map] at hm
  rcases Option.map_eq_some_iff.mp hm with ⟨ds, _, hIs⟩
  exact hIs.symm

theorem digits_of_pointed
    (x : Numeral) :
    ((pointed x).map Prod.snd).getD [] = x.fractionDigits := by
  rw [pointed, Option.map_map]
  exact congrArg (Option.getD · []) Option.map_id'

/- The text behind the sign, part by part. -/
theorem body_append
    (x : Numeral)
    (rest : List Char) :
    x.body ++ rest = x.ints ++
      (markedText (pointed x) ++ (markedText x.exponent ++ rest)) := by
  simp [Numeral.body, markedText, pointed, Function.comp_def]

/- Each part of a numeral ends where the next one starts. -/
theorem stops_parts
    {x : Numeral}
    {rest : List Char}
    (hLegal : x.Legal)
    (hStops : Stops prolongs rest) :
    Stops Char.isDigit
        (markedText (pointed x) ++ (markedText x.exponent ++ rest)) ∧
      Stops (· == '.') (markedText x.exponent ++ rest) ∧
      Stops Char.isDigit (markedText x.exponent ++ rest) ∧
      ∀ m ∈ x.exponent.map Prod.fst, isScale m = true := by
  rcases hStops.of_prolongs with ⟨hNoDigit, hNoPoint, -⟩
  have hScale : ∀ m ∈ x.exponent.map Prod.fst,
      m.isDigit = false ∧ (m == '.') = false ∧ isScale m = true := by
    intro m hm
    rcases hLegal.mark m hm with rfl | rfl
    · decide
    · decide
  have hScaledDigit := stops_marked
    (fun m hm => (hScale m hm).1) hNoDigit
  refine ⟨?_, ?_, hScaledDigit, fun m hm => (hScale m hm).2.2⟩
  · exact stops_marked
      (fun m hm => by rw [point_of_pointed x m hm]; rfl) hScaledDigit
  · exact stops_marked (fun m hm => (hScale m hm).2.1) hNoPoint

/-
  The parts of a numeral are read, whatever it denotes: the
  digits before the point, the point and the digits behind it,
  and the mark of the exponent and its digits.
-/
theorem number_parts
    {x : Numeral}
    {rest : List Char}
    {c : Cursor}
    (hText : c.rest = x.body ++ rest)
    (hLegal : x.Legal)
    (hStops : Stops prolongs rest) :
    ∃ c' : Cursor, c'.rest = rest ∧
      number x.negative c =
        if x.fraction.isSome ∨ x.exponent.isSome then
          .ok (real x.negative x.ints x.fractionDigits
            x.exponentDigits, c')
        else
          match integer x.negative x.ints with
          | .ok p => .ok (p, c')
          | .error problem => c.fail problem := by
  rcases hStops.of_prolongs with ⟨hNoDigit, -, hNoScale⟩
  rcases stops_parts hLegal hStops with
    ⟨hPointedDigit, hScaledPoint, hScaledDigit, hScale⟩
  rw [body_append] at hText
  have hInts := takeWhile_append_of_stops hLegal.ints hPointedDigit
  rw [← hText] at hInts
  rcases marked_accepts (c := c.skip Char.isDigit) hInts.2
    (fun m hm => beq_iff_eq.mpr (point_of_pointed x m hm))
    (by rw [digits_of_pointed]; exact hLegal.fraction)
    hScaledPoint hScaledDigit with
    ⟨hPointed, hFraction, hSecond⟩
  rw [digits_of_pointed] at hFraction
  rcases marked_accepts hSecond hScale
    hLegal.exponent hNoScale hNoDigit with
    ⟨hScaled, hExponent, hThird⟩
  refine ⟨_, hThird, ?_⟩
  have hTaken : c.taken Char.isDigit = x.ints := hInts.1
  rw [number, hTaken, beq_some_eq_any, hPointed, hFraction,
    beq_scale_eq_any, hScaled, hExponent, pointed,
    Option.isSome_map]
  rw [if_neg]
  · rfl
  · rw [List.isEmpty_iff, List.isEmpty_iff, not_and_or]
    exact hLegal.some

/- What a numeral denotes is read from its text. -/
theorem number_accepts
    {x : Numeral}
    {p : Payload}
    {rest : List Char}
    {c : Cursor}
    (hText : c.rest = x.body ++ rest)
    (hLegal : x.Legal)
    (hDenotes : x.Denotes p)
    (hStops : Stops prolongs rest) :
    ∃ c', number x.negative c = .ok (p, c') ∧ c'.rest = rest := by
  rcases number_parts hText hLegal hStops with ⟨c', hRest, hRead⟩
  refine ⟨c', ?_, hRest⟩
  rw [hRead]
  cases hDenotes with
  | real hShown =>
      rw [if_pos (by simpa [Option.isSome_iff_ne_none] using hShown)]
      rfl
  | int value hNoFraction hNoExponent hExact =>
      rw [if_neg (by simp [hNoFraction, hNoExponent]),
        integer_accepts hExact]

------------------------------------------------------------
-- Strings
------------------------------------------------------------

theorem take_takeWhile_of_maximal
    {p : Char → Bool}
    {most : Nat}
    {taken rest : List Char}
    (hAll : ∀ c ∈ taken, p c = true)
    (hBounded : taken.length ≤ most)
    (hMaximal : taken.length < most → Stops p rest) :
    ((taken ++ rest).take most).takeWhile p = taken := by
  rw [List.take_append, List.take_of_length_le hBounded]
  refine (takeWhile_append_of_stops hAll ?_).1
  intro c hHead
  by_cases hFewer : taken.length < most
  · apply hMaximal hFewer
    rw [← hHead, List.head?_take, if_neg (by omega)]
  · rw [Nat.sub_eq_zero_of_le (Nat.not_lt.mp hFewer),
      List.take_zero] at hHead
    cases hHead

/- What is quoted is read up to the closing quote. -/
theorem stringBody_accepts
    {cs s : List Char}
    (rest : List Char)
    (hQuoted : Quoted cs s)
    (offset : Nat) :
    ∃ c, stringBody (cs ++ '"' :: rest) offset = .ok (s, c) ∧
      c.rest = rest := by
  induction hQuoted generalizing offset with
  | nil =>
      rw [List.nil_append, stringBody]
      exact ⟨_, rfl, rfl⟩
  | plain hQuote hEscape _ ih =>
      rcases ih _ with ⟨c, hRead, hRest⟩
      rw [List.cons_append, stringBody, hRead]
      · exact ⟨c, rfl, hRest⟩
      · exact hQuote
      · intro hSlash
        exact absurd hSlash hEscape
      · intro e more hSlash
        exact absurd hSlash hEscape
  | letter hKnown _ ih =>
      rcases ih _ with ⟨c, hRead, hRest⟩
      rw [List.cons_append, List.cons_append, stringBody,
        mem_letterEscapes_iff.mp hKnown]
      dsimp only
      rw [hRead]
      exact ⟨c, rfl, hRest⟩
  | @code e ch least most digits cs s hKnown hHex hEnough hBounded
      hMaximal hNames _ ih =>
      have hLetter : simpleEscape? e = none := by
        simp only [codeEscapes, List.mem_cons, Prod.mk.injEq,
          List.not_mem_nil, or_false] at hKnown
        rcases hKnown with ⟨rfl, _⟩ | ⟨rfl, _⟩ | ⟨rfl, _⟩
        all_goals rfl
      have hDigits : ((digits ++ (cs ++ '"' :: rest)).take
          most).takeWhile isHexDigit = digits := by
        apply take_takeWhile_of_maximal hHex hBounded
        intro hFewer d hHead
        cases cs with
        | nil =>
            cases hHead
            rfl
        | cons c cs => exact hMaximal hFewer d hHead
      rcases ih (offset + 2 + digits.length) with
        ⟨c, hRead, hRest⟩
      simp only [List.cons_append, List.append_assoc]
      rw [stringBody, hLetter, mem_codeEscapes_iff.mp hKnown]
      dsimp only
      rw [hDigits, if_neg (Nat.not_lt.mpr hEnough),
        charOfCode?_eq_some_iff.mpr hNames]
      dsimp only
      rw [List.drop_left, hRead]
      exact ⟨c, rfl, hRest⟩

------------------------------------------------------------
-- Readers
------------------------------------------------------------

/- A reader gives a result and ends before a text, blanks apart. -/
def Ends
    {α : Type}
    (x : Except FormatError (α × Cursor))
    (a : α)
    (rest : List Char) : Prop :=
  ∃ c, x = .ok (a, c) ∧
    c.skipBlanks.rest = rest.dropWhile Text.isBlank

theorem ends_ok
    {α : Type}
    {a : α}
    {c : Cursor}
    {rest : List Char}
    (hRest : c.rest = rest) :
    Ends (.ok (a, c)) a rest :=
  ⟨c, rfl, congrArg (List.dropWhile Text.isBlank) hRest⟩

theorem Ends.bind
    {α β : Type}
    {x : Except FormatError (α × Cursor)}
    {f : α × Cursor → Except FormatError (β × Cursor)}
    {a : α}
    {b : β}
    {rest rest' : List Char}
    (hFirst : Ends x a rest)
    (hNext : ∀ c : Cursor,
      c.skipBlanks.rest = rest.dropWhile Text.isBlank →
        Ends (f (a, c)) b rest') :
    Ends (x >>= f) b rest' := by
  rcases hFirst with ⟨c, rfl, hRest⟩
  exact hNext c hRest

theorem dropWhile_blanks
    {blanks : List Char}
    (hBlanks : Blanks blanks)
    (rest : List Char) :
    (blanks ++ rest).dropWhile Text.isBlank =
      rest.dropWhile Text.isBlank := by
  rw [List.dropWhile_append, List.dropWhile_eq_nil_iff.mpr hBlanks]
  rfl

theorem skipBlanks_rest
    (c : Cursor) :
    c.skipBlanks.rest = c.rest.dropWhile Text.isBlank :=
  rfl

/- Behind skipped blanks there is nothing to skip. -/
theorem skipBlanks_skipBlanks
    (c : Cursor) :
    c.skipBlanks.skipBlanks = c.skipBlanks := by
  have hNone : (c.rest.dropWhile Text.isBlank).takeWhile
      Text.isBlank = [] := by
    have hStop := List.head?_dropWhile_not Text.isBlank c.rest
    cases hRest : c.rest.dropWhile Text.isBlank with
    | nil => rfl
    | cons d rest =>
        rw [hRest] at hStop
        exact List.takeWhile_cons_of_neg (by simpa using hStop)
  unfold Cursor.skipBlanks Cursor.skip Cursor.taken
  dsimp only
  rw [List.dropWhile_idempotent, hNone]
  rfl

theorem term_skipBlanks
    (n : Nat)
    (c : Cursor) :
    term (n + 1) c.skipBlanks = term (n + 1) c := by
  rw [term, term, skipBlanks_skipBlanks]

theorem someTerms_skipBlanks
    (n : Nat)
    (close : Char)
    (c : Cursor) :
    someTerms (n + 2) close c.skipBlanks =
      someTerms (n + 2) close c := by
  rw [someTerms, someTerms, term_skipBlanks]

------------------------------------------------------------
-- First Characters
------------------------------------------------------------

/- A character with which a term can start. -/
def StartsTerm
    (c : Char) : Prop :=
  Text.isBlank c = false ∧ c ∉ closers

instance
    (c : Char) :
    Decidable (StartsTerm c) :=
  inferInstanceAs (Decidable (_ ∧ _))

theorem startsTerm_of_isNameStart
    {c : Char}
    (hStart : Term.isNameStart c = true) :
    StartsTerm c := by
  have hChar := Term.isNameChar_of_isNameStart hStart
  constructor
  · rw [Bool.eq_false_iff]
    intro hBlank
    rw [Term.isNameChar_of_isBlank hBlank] at hChar
    cases hChar
  · intro hCloses
    simp only [closers, List.mem_cons, List.not_mem_nil, or_false]
      at hCloses
    rcases hCloses with rfl | rfl | rfl | rfl | rfl
    all_goals exact absurd hChar (by decide)

theorem startsTerm_of_startsNumber
    {c : Char}
    (hStart : Term.startsNumber c = true) :
    StartsTerm c := by
  unfold Term.startsNumber at hStart
  rw [Bool.or_eq_true, beq_iff_eq] at hStart
  rcases hStart with rfl | hDigit
  · decide
  · refine ⟨(Term.isNameChar_of_isDigit hDigit).2.2, ?_⟩
    intro hCloses
    simp only [closers, List.mem_cons, List.not_mem_nil, or_false]
      at hCloses
    rcases hCloses with rfl | rfl | rfl | rfl | rfl
    all_goals exact absurd hDigit (by decide)

/- Behind its sign a number starts with a digit or a point. -/
theorem body_starts
    {x : Numeral}
    (hLegal : x.Legal) :
    ∃ c cs, x.body = c :: cs ∧ Term.startsNumber c = true := by
  cases hInts : x.ints with
  | cons d ds =>
      have hDigit := hLegal.ints d (by rw [hInts]; exact List.mem_cons_self)
      rw [Numeral.body, hInts, List.cons_append]
      exact ⟨d, _, rfl, by simp [Term.startsNumber, hDigit]⟩
  | nil =>
      cases hFraction : x.fraction with
      | none =>
          have hNone := hLegal.some
          simp [hInts, Numeral.fractionDigits, hFraction] at hNone
      | some ds =>
          rw [Numeral.body, hInts, hFraction]
          exact ⟨'.', _, rfl, rfl⟩

theorem spellsCore_starts
    {cs : List Char}
    {p : Payload}
    (hSpells : SpellsCore cs p) :
    ∃ c more, cs = c :: more ∧ StartsTerm c := by
  cases hSpells with
  | list => exact ⟨_, _, rfl, by decide⟩
  | tuple => exact ⟨_, _, rfl, by decide⟩
  | application hName =>
      cases hName with
      | mk hStart =>
          exact ⟨_, _, rfl, startsTerm_of_isNameStart hStart⟩
  | constant hName =>
      cases hName with
      | mk hStart =>
          exact ⟨_, _, rfl, startsTerm_of_isNameStart hStart⟩
  | string => exact ⟨_, _, rfl, by decide⟩
  | placeholder => exact ⟨_, _, rfl, by decide⟩
  | @number x _ hLegal =>
      rcases body_starts hLegal with ⟨c, more, hBody, hStart⟩
      unfold Numeral.text Numeral.sign
      by_cases hNegative : x.negative = true
      · rw [if_pos hNegative]
        exact ⟨'-', _, rfl, by decide⟩
      · rw [if_neg hNegative, hBody]
        exact ⟨c, more, rfl, startsTerm_of_startsNumber hStart⟩

/- Blanks before a term are skipped, and nothing else is. -/
theorem spells_starts
    {cs : List Char}
    {t : Term}
    (hSpells : Spells cs t)
    (rest : List Char) :
    0 < cs.length ∧ ∃ c more,
      (cs ++ rest).dropWhile Text.isBlank = c :: more ∧
        c ∉ closers := by
  have hCore : ∃ blanks c more, Blanks blanks ∧
      cs = blanks ++ c :: more ∧ StartsTerm c := by
    cases hSpells with
    | plain hBefore hCore =>
        rcases spellsCore_starts hCore with ⟨c, more, rfl, hStart⟩
        exact ⟨_, c, _, hBefore, rfl, hStart⟩
    | annotated hBefore hCore =>
        rcases spellsCore_starts hCore with ⟨c, more, rfl, hStart⟩
        exact ⟨_, c, _, hBefore, rfl, hStart⟩
  rcases hCore with ⟨blanks, c, more, hBlanks, rfl, hStart⟩
  have hPos : 0 < (blanks ++ c :: more).length := by
    rw [List.length_append, List.length_cons]
    omega
  refine ⟨hPos, c, more ++ rest, ?_, hStart.2⟩
  rw [List.append_assoc, dropWhile_blanks hBlanks, List.cons_append,
    List.dropWhile_cons_of_neg (by simp [hStart.1])]

theorem spellsSome_starts
    {cs : List Char}
    {ts : List Term}
    (hSpells : SpellsSome cs ts)
    (rest : List Char) :
    0 < cs.length ∧ ∃ c more,
      (cs ++ rest).dropWhile Text.isBlank = c :: more ∧
        c ∉ closers := by
  cases hSpells with
  | one hOnly => exact spells_starts hOnly rest
  | more hFirst hComma hOthers =>
      rcases spells_starts hFirst (_ ++ rest) with ⟨hPos, hStart⟩
      rw [List.append_assoc]
      exact ⟨by rw [List.length_append]; omega, hStart⟩

------------------------------------------------------------
-- Terms
------------------------------------------------------------

theorem core_list
    {c : Cursor}
    {cs : List Char}
    (n : Nat)
    (hText : c.rest = '[' :: cs) :
    core n c = terms n ']' c.next >>= fun r =>
      pure (.list r.1, r.2) := by
  rw [core, hText]
  rfl

theorem core_string
    {c : Cursor}
    {cs : List Char}
    (n : Nat)
    (hText : c.rest = '"' :: cs) :
    core n c = stringBody cs (c.offset + 1) >>= fun r =>
      pure (.str (String.ofList r.1), r.2) := by
  rw [core, hText]
  rfl

theorem core_placeholder
    {c : Cursor}
    {cs : List Char}
    (n : Nat)
    (hText : c.rest = '<' :: cs) :
    core n c = term n c.next >>= fun r =>
      match r.2.skipBlanks.rest with
      | [] => r.2.skipBlanks.fail .endOfInput
      | ch :: _ =>
          if ch = '>' then
            pure (.placeholder r.1, r.2.skipBlanks.next)
          else
            r.2.skipBlanks.fail (.placeholderEnd ch) := by
  rw [core, hText]
  rfl

theorem core_tuple
    {c : Cursor}
    {cs : List Char}
    (n : Nat)
    (hText : c.rest = '(' :: cs) :
    core n c = terms n ')' c.next >>= fun r =>
      pure (.appl "" r.1, r.2) := by
  rw [core, hText]
  dsimp only
  rw [if_neg (by decide), if_neg (by decide), if_neg (by decide),
    if_neg (by decide), if_neg (by simp), if_pos (Or.inl rfl),
    name_of_not_start hText (by decide)]
  dsimp only
  rw [Cursor.skipBlanks_of_rest hText rfl, hText]
  rfl

theorem core_number
    {x : Numeral}
    {c : Cursor}
    {rest : List Char}
    (n : Nat)
    (hText : c.rest = x.text ++ rest)
    (hLegal : x.Legal) :
    ∃ c' : Cursor, c'.rest = x.body ++ rest ∧
      core n c = number x.negative c' := by
  rcases body_starts hLegal with ⟨d, more, hBody, hStart⟩
  by_cases hNegative : x.negative = true
  · have hSigned : c.rest = '-' :: (x.body ++ rest) := by
      simp [hText, Numeral.text, Numeral.sign, hNegative]
    refine ⟨c.next, Cursor.rest_next hSigned, ?_⟩
    rw [core, hSigned, hNegative]
    dsimp only
    rw [if_neg (by decide), if_neg (by decide), if_neg (by decide),
      if_neg (by decide), if_pos]
    simp [hBody, hStart]
  · have hPlain : c.rest = x.body ++ rest := by
      simp [hText, Numeral.text, Numeral.sign, hNegative]
    have hOther : d ≠ '[' ∧ d ≠ '"' ∧ d ≠ '<' := by
      refine ⟨?_, ?_, ?_⟩
      all_goals
        rintro rfl
        exact absurd hStart (by decide)
    rw [Bool.not_eq_true] at hNegative
    refine ⟨c, hPlain, ?_⟩
    rw [core, hPlain, hBody, List.cons_append, hNegative]
    dsimp only
    rw [if_neg hOther.1, if_neg hOther.2.1, if_neg hOther.2.2,
      if_pos hStart]

theorem startsNumber_of_isNameStart
    {c : Char}
    (hStart : Term.isNameStart c = true) :
    Term.startsNumber c = false := by
  rw [Term.startsNumber, Bool.or_eq_false_iff, beq_eq_false_iff_ne]
  constructor
  · rintro rfl
    exact absurd hStart (by decide)
  · rw [Bool.eq_false_iff]
    intro hDigit
    rw [(Term.isNameChar_of_isDigit hDigit).2.1] at hStart
    cases hStart

/- No name is taken for a negative number, whatever follows. -/
theorem not_negative_of_identifier
    {c : Char}
    {cs rest : List Char}
    (hName : Identifier (c :: cs))
    (hStops : Stops prolongs rest) :
    ¬ (c = '-' ∧
      (cs ++ rest).head?.any Term.startsNumber = true) := by
  rintro ⟨hDash, hNumber⟩
  rcases (Option.any_eq_true _ _).mp hNumber with ⟨d, hHead, hDigit⟩
  cases hName with
  | mk _ _ hNoNumber =>
      cases cs with
      | nil =>
          rcases hStops.of_prolongs with ⟨hNoDigit, hNoPoint, _⟩
          have hPoint : (d == '.') = false := hNoPoint d hHead
          rw [Term.startsNumber, hPoint, hNoDigit d hHead] at hDigit
          cases hDigit
      | cons e es =>
          rw [hNoNumber hDash d hHead] at hDigit
          cases hDigit

/- A name is read to its end. -/
theorem name_accepts
    {constructor : List Char}
    {c : Cursor}
    {rest : List Char}
    (hText : c.rest = constructor ++ rest)
    (hName : Identifier constructor)
    (hStops : Stops prolongs rest) :
    ∃ c' : Cursor, c'.rest = rest ∧ name c = (constructor, c') := by
  have hEnd : Stops Term.isNameChar rest := by
    intro d hHead
    have hStop := hStops d hHead
    rw [prolongs, Bool.or_eq_false_iff] at hStop
    exact hStop.1
  cases hName with
  | @mk ch cs hStart hOthers _ =>
      have hNext : c.next.rest = cs ++ rest := Cursor.rest_next hText
      have hTaken := takeWhile_append_of_stops hOthers hEnd
      rw [← hNext] at hTaken
      refine ⟨c.next.skip Term.isNameChar, hTaken.2, ?_⟩
      unfold name Cursor.taken
      rw [hText, hTaken.1]
      dsimp only [List.cons_append]
      rw [if_pos hStart]

/- Behind a name stand arguments, or it is a constant. -/
theorem core_name
    {constructor : List Char}
    {c : Cursor}
    {rest : List Char}
    (n : Nat)
    (hText : c.rest = constructor ++ rest)
    (hName : Identifier constructor)
    (hStops : Stops prolongs rest) :
    ∃ c' : Cursor, c'.rest = rest ∧
      core n c =
        if c'.skipBlanks.rest.head? == some '(' then
          terms n ')' c'.skipBlanks.next >>= fun r =>
            pure (.appl (String.ofList constructor) r.1, r.2)
        else
          pure (.appl (String.ofList constructor) [],
            c'.skipBlanks) := by
  rcases name_accepts hText hName hStops with ⟨c', hRest, hRead⟩
  refine ⟨c', hRest, ?_⟩
  cases constructor with
  | nil => cases hName
  | cons ch cs =>
      have hStart : Term.isNameStart ch = true := by
        cases hName with
        | mk hStart _ _ => exact hStart
      have hOther : ch ≠ '[' ∧ ch ≠ '"' ∧ ch ≠ '<' := by
        refine ⟨?_, ?_, ?_⟩
        all_goals
          rintro rfl
          exact absurd hStart (by decide)
      have hNoNumber := startsNumber_of_isNameStart hStart
      rw [core, hText, List.cons_append]
      dsimp only
      rw [if_neg hOther.1, if_neg hOther.2.1, if_neg hOther.2.2,
        if_neg (by rw [hNoNumber]; exact Bool.false_ne_true),
        if_neg (not_negative_of_identifier hName hStops),
        if_pos (Or.inr hStart), hRead]

/- Neither a name nor a number goes on behind a term. -/
theorem Follows.stops_prolongs
    {marks rest : List Char}
    (hFollows : Follows marks rest)
    (hMarks : marks.all (!prolongs ·) = true) :
    Stops prolongs rest := by
  apply hFollows.stops
  · intro c hMember
    have hStop := List.all_eq_true.mp hMarks c hMember
    rwa [Bool.not_eq_true'] at hStop
  · intro c hBlank
    rw [prolongs, Term.isNameChar_of_isBlank hBlank, Bool.false_or,
      beq_eq_false_iff_ne]
    rintro rfl
    exact absurd hBlank (by decide)

/- Blanks and a mark. -/
theorem dropWhile_mark
    {gap : List Char}
    {mark : Char}
    (rest : List Char)
    (hGap : Blanks gap)
    (hMark : Text.isBlank mark = false) :
    (gap ++ mark :: rest).dropWhile Text.isBlank = mark :: rest := by
  rw [dropWhile_blanks hGap,
    List.dropWhile_cons_of_neg (by simp [hMark])]

theorem follows_mark
    {marks gap : List Char}
    {mark : Char}
    (rest : List Char)
    (hGap : Blanks gap)
    (hBlank : Text.isBlank mark = false)
    (hMark : mark ∈ marks) :
    Follows marks (gap ++ mark :: rest) := by
  intro c hHead
  rw [dropWhile_mark rest hGap hBlank, List.head?_cons,
    Option.some.injEq] at hHead
  rwa [← hHead]

theorem isBlank_of_mem_closers
    {c : Char}
    (hCloses : c ∈ closers) :
    Text.isBlank c = false := by
  have hAll : closers.all (!Text.isBlank ·) = true := by decide
  have hOther := List.all_eq_true.mp hAll c hCloses
  rwa [Bool.not_eq_true'] at hOther

/- The blanks before a term are those that are skipped. -/
theorem skipBlanks_before
    {c : Cursor}
    {p : Payload}
    {blanks cs rest : List Char}
    (hText : c.rest = blanks ++ (cs ++ rest))
    (hBefore : Blanks blanks)
    (hCore : SpellsCore cs p) :
    c.skipBlanks.rest = cs ++ rest := by
  rcases spellsCore_starts hCore with ⟨d, more, rfl, hStart⟩
  rw [skipBlanks_rest, hText, dropWhile_blanks hBefore,
    List.cons_append,
    List.dropWhile_cons_of_neg (by simp [hStart.1])]

mutual

/-
  A derived term is read, whatever may follow a term.  Every
  bracket costs two calls, and so does every comma, which the
  length of the text pays for.
-/
theorem term_accepts
    {n : Nat}
    {c : Cursor}
    {cs rest : List Char}
    {t : Term}
    (hText : c.rest = cs ++ rest)
    (hFollows : Follows closers rest)
    (hFuel : 2 * cs.length ≤ n)
    (hSpells : Spells cs t) :
    Ends (term n c) t rest := by
  cases n with
  | zero =>
      have hPos := (spells_starts hSpells []).1
      omega
  | succ n =>
      rw [term]
      match hSpells with
      | .plain hBefore hCore =>
          rw [List.append_assoc] at hText
          rw [List.length_append] at hFuel
          apply Ends.bind (core_accepts
            (skipBlanks_before hText hBefore hCore)
            (hFollows.mono fun c hc => List.mem_cons_of_mem _ hc)
            (by omega) hCore)
          intro c' hRest
          dsimp only
          rw [hRest, if_neg]
          · refine ⟨_, rfl, ?_⟩
            rw [skipBlanks_skipBlanks, hRest]
          · intro hBrace
            have hCloses := hFollows _ (beq_iff_eq.mp hBrace)
            exact absurd hCloses (by decide)
      | .annotated hBefore hCore hGap hTerms hGap' =>
          simp only [List.append_assoc, List.cons_append,
            List.nil_append] at hText
          simp only [List.length_append, List.length_cons] at hFuel
          apply Ends.bind (core_accepts
            (skipBlanks_before hText hBefore hCore)
            (follows_mark _ hGap (by decide) List.mem_cons_self)
            (by omega) hCore)
          intro c' hRest
          rw [dropWhile_mark _ hGap (by decide)] at hRest
          dsimp only
          rw [hRest, if_pos (by simp)]
          apply Ends.bind (terms_accepts
            (Cursor.rest_next hRest) (by decide) (by decide) hGap'
            (by omega) hTerms)
          intro c'' hLast
          exact ⟨c'', rfl, hLast⟩

theorem core_accepts
    {n : Nat}
    {c : Cursor}
    {cs rest : List Char}
    {p : Payload}
    (hText : c.rest = cs ++ rest)
    (hFollows : Follows ('\x7b' :: closers) rest)
    (hFuel : 2 * cs.length ≤ n + 1)
    (hSpells : SpellsCore cs p) :
    Ends (core n c) p rest := by
  match hSpells with
  | .list hTerms hGap =>
      simp only [List.length_cons, List.length_append] at hFuel
      simp only [List.cons_append, List.append_assoc,
        List.nil_append] at hText
      rw [core_list n hText]
      apply Ends.bind (terms_accepts (Cursor.rest_next hText)
        (by decide) (by decide) hGap (by omega) hTerms)
      intro c' hRest
      exact ⟨c', rfl, hRest⟩
  | .tuple hTerms hGap =>
      simp only [List.length_cons, List.length_append] at hFuel
      simp only [List.cons_append, List.append_assoc,
        List.nil_append] at hText
      rw [core_tuple n hText]
      apply Ends.bind (terms_accepts (Cursor.rest_next hText)
        (by decide) (by decide) hGap (by omega) hTerms)
      intro c' hRest
      exact ⟨c', rfl, hRest⟩
  | @SpellsCore.application _ ds _ gap' _ hName hGap hTerms hGap' =>
      simp only [List.length_cons, List.length_append] at hFuel
      simp only [List.cons_append, List.append_assoc,
        List.nil_append] at hText
      have hBehind := follows_mark
        (ds ++ (gap' ++ ')' :: rest)) hGap (by decide)
        (List.mem_singleton_self '(')
      rcases core_name n hText hName
        (hBehind.stops_prolongs (by decide)) with
        ⟨c', hRest, hRead⟩
      have hOpen : c'.skipBlanks.rest =
          '(' :: (ds ++ (gap' ++ ')' :: rest)) := by
        rw [skipBlanks_rest, hRest]
        exact dropWhile_mark _ hGap (by decide)
      rw [hRead, hOpen, if_pos (by simp)]
      apply Ends.bind (terms_accepts (Cursor.rest_next hOpen)
        (by decide) (by decide) hGap' (by omega) hTerms)
      intro c'' hLast
      exact ⟨c'', rfl, hLast⟩
  | .constant hName =>
      rcases core_name n hText hName
        (hFollows.stops_prolongs (by decide)) with
        ⟨c', hRest, hRead⟩
      rw [hRead, if_neg]
      · refine ⟨_, rfl, ?_⟩
        rw [skipBlanks_skipBlanks, skipBlanks_rest, hRest]
      · intro hOpen
        rw [skipBlanks_rest, hRest] at hOpen
        have hCloses := hFollows _ (beq_iff_eq.mp hOpen)
        exact absurd hCloses (by decide)
  | .string hQuoted =>
      simp only [List.cons_append, List.append_assoc,
        List.nil_append] at hText
      rcases stringBody_accepts rest hQuoted (c.offset + 1) with
        ⟨c', hRead, hRest⟩
      rw [core_string n hText, hRead]
      exact ends_ok hRest
  | .placeholder hTemplate hGap =>
      simp only [List.length_cons, List.length_append] at hFuel
      simp only [List.cons_append, List.append_assoc,
        List.nil_append] at hText
      rw [core_placeholder n hText]
      apply Ends.bind (term_accepts (Cursor.rest_next hText)
        (follows_mark rest hGap (by decide) (by decide)) (by omega)
        hTemplate)
      intro c' hRest
      rw [dropWhile_mark rest hGap (by decide)] at hRest
      dsimp only
      rw [hRest]
      exact ends_ok (Cursor.rest_next hRest)
  | .number hLegal hDenotes =>
      rcases core_number n hText hLegal with ⟨c', hBody, hRead⟩
      rcases number_accepts hBody hLegal hDenotes
        (hFollows.stops_prolongs (by decide)) with
        ⟨c'', hNumber, hRest⟩
      rw [hRead, hNumber]
      exact ends_ok hRest

theorem terms_accepts
    {n : Nat}
    {close : Char}
    {c : Cursor}
    {cs gap rest : List Char}
    {ts : List Term}
    (hText : c.rest = cs ++ (gap ++ close :: rest))
    (hClose : close ∈ closers)
    (hOther : close ≠ ',')
    (hGap : Blanks gap)
    (hFuel : 2 * cs.length + 1 ≤ n)
    (hSpells : SpellsTerms cs ts) :
    Ends (terms n close c) ts rest := by
  match hSpells with
  | .none =>
      have hRest : c.skipBlanks.rest = close :: rest := by
        rw [skipBlanks_rest, hText]
        exact dropWhile_mark rest hGap
          (isBlank_of_mem_closers hClose)
      rw [terms, hRest]
      dsimp only
      rw [if_pos rfl]
      exact ends_ok (Cursor.rest_next hRest)
  | .some hSome =>
      have hRead := someTerms_accepts hText hClose hOther hGap hFuel hSome
      rcases spellsSome_starts hSome (gap ++ close :: rest) with
        ⟨hPos, d, more, hStart, hOpen⟩
      rcases Nat.exists_eq_add_of_le
        (show 2 ≤ n by omega) with ⟨m, rfl⟩
      rw [terms, skipBlanks_rest, hText, hStart]
      dsimp only
      rw [if_neg]
      · rw [Nat.add_comm, someTerms_skipBlanks, Nat.add_comm]
        exact hRead
      · rintro rfl
        exact hOpen hClose

theorem someTerms_accepts
    {n : Nat}
    {close : Char}
    {c : Cursor}
    {cs gap rest : List Char}
    {ts : List Term}
    (hText : c.rest = cs ++ (gap ++ close :: rest))
    (hClose : close ∈ closers)
    (hOther : close ≠ ',')
    (hGap : Blanks gap)
    (hFuel : 2 * cs.length + 1 ≤ n)
    (hSpells : SpellsSome cs ts) :
    Ends (someTerms n close c) ts rest := by
  cases n with
  | zero => omega
  | succ n =>
      have hBlank := isBlank_of_mem_closers hClose
      rw [someTerms]
      match hSpells with
      | .one hOnly =>
          apply Ends.bind (term_accepts hText
            (follows_mark rest hGap hBlank hClose) (by omega) hOnly)
          intro c' hRest
          rw [dropWhile_mark rest hGap hBlank] at hRest
          dsimp only
          rw [hRest]
          dsimp only
          rw [if_neg hOther, if_pos rfl]
          exact ends_ok (Cursor.rest_next hRest)
      | .more hFirst hComma hOthers =>
          simp only [List.append_assoc, List.cons_append] at hText
          simp only [List.length_append, List.length_cons] at hFuel
          apply Ends.bind (term_accepts hText
            (follows_mark _ hComma (by decide) (by decide))
            (by omega) hFirst)
          intro c' hRest
          rw [dropWhile_mark _ hComma (by decide)] at hRest
          dsimp only
          rw [hRest]
          dsimp only
          rw [if_pos rfl]
          apply Ends.bind (someTerms_accepts
            (Cursor.rest_next hRest) hClose hOther hGap (by omega) hOthers)
          intro c'' hLast
          exact ⟨c'', rfl, hLast⟩

end

end Reader

------------------------------------------------------------
-- Whole Texts
------------------------------------------------------------

namespace Term

/- A derived text is read as the term that it spells. -/
theorem read_of_spellsText
    {s : String}
    {t : Term}
    (hSpells : SpellsText s.toList t) :
    Term.read s = .ok t := by
  generalize hText : s.toList = text at hSpells
  cases hSpells with
  | @mk cs blanks _ hTerm hBehind =>
      have hNone : blanks.dropWhile Text.isBlank = [] :=
        List.dropWhile_eq_nil_iff.mpr hBehind
      have hFollows : Reader.Follows Reader.closers blanks := by
        intro c hHead
        rw [hNone] at hHead
        cases hHead
      rcases Reader.term_accepts
        (n := 2 * (cs ++ blanks).length + 1)
        (c := ⟨cs ++ blanks, 0⟩) rfl hFollows
        (by rw [List.length_append]; omega) hTerm with
        ⟨c, hRead, hRest⟩
      rw [hNone] at hRest
      rw [Term.read, hText]
      dsimp only
      rw [hRead]
      dsimp only [bind, Except.bind]
      rw [hRest]
      rfl

/- The reader accepts the texts of the grammar, and no other. -/
theorem read_iff_spellsText
    (s : String)
    (t : Term) :
    Term.read s = .ok t ↔ SpellsText s.toList t :=
  ⟨spellsText_of_read, read_of_spellsText⟩

end Term

end Stratagem

import Stratagem.Term.Writer
import Stratagem.Proofs.Binary.Shortest
import Stratagem.Proofs.Term.Derivation

/-
  The texts of leaves are spelled by the grammar.

  A string is written with escapes that mean its characters,
  an integer and a finite real as numerals that denote them,
  and what passes for a constructor is a name.

  Main declarations:
    * `Term.isIdentifier_iff`
    * `Term.quoted_flatMap_escapeChar`
    * `Term.renderInt_spelled`
    * `Term.renderReal_spelled`
-/

namespace Stratagem

open Grammar

namespace Term

------------------------------------------------------------
-- Names
------------------------------------------------------------

theorem isIdentifier_iff
    (cs : List Char) :
    isIdentifier cs = true ↔ cs = [] ∨ Identifier cs := by
  cases cs with
  | nil => simp [isIdentifier]
  | cons c cs =>
      simp only [isIdentifier, Bool.and_eq_true, List.all_eq_true,
        Bool.not_eq_true', Bool.and_eq_false_imp, beq_iff_eq,
        reduceCtorEq, false_or]
      constructor
      · rintro ⟨⟨hStart, hOthers⟩, hNoNumber⟩
        apply Identifier.mk hStart hOthers
        intro hDash d hHead
        have hNone := hNoNumber hDash
        rw [hHead] at hNone
        exact hNone
      · intro hName
        cases hName with
        | mk hStart hOthers hNoNumber =>
            refine ⟨⟨hStart, hOthers⟩, ?_⟩
            intro hDash
            cases hHead : cs.head? with
            | none => rfl
            | some d => exact hNoNumber hDash d hHead

------------------------------------------------------------
-- Strings
------------------------------------------------------------

/- Four digits name a control character. -/
theorem control_digits :
    ∀ n < 160, (Text.padLeft 4 '0' (Text.hex n)).all
        Reader.isHexDigit = true ∧
      (Text.padLeft 4 '0' (Text.hex n)).length = 4 ∧
      Reader.hexValue (Text.padLeft 4 '0' (Text.hex n)) = n := by
  decide +kernel

/- One character and how it is written. -/
theorem quoted_escapeChar
    {cs s : List Char}
    (c : Char)
    (hRest : Quoted cs s) :
    Quoted (escapeChar c ++ cs) (c :: s) := by
  unfold escapeChar
  by_cases hBackslash : c = '\\'
  · rw [if_pos hBackslash, hBackslash]
    exact .letter (by decide) hRest
  by_cases hQuote : c = '"'
  · rw [if_neg hBackslash, if_pos hQuote, hQuote]
    exact .letter (by decide) hRest
  by_cases hNewline : c = '\n'
  · rw [if_neg hBackslash, if_neg hQuote, if_pos hNewline, hNewline]
    exact .letter (by decide) hRest
  by_cases hReturn : c = '\r'
  · rw [if_neg hBackslash, if_neg hQuote, if_neg hNewline,
      if_pos hReturn, hReturn]
    exact .letter (by decide) hRest
  by_cases hTab : c = '\t'
  · rw [if_neg hBackslash, if_neg hQuote, if_neg hNewline,
      if_neg hReturn, if_pos hTab, hTab]
    exact .letter (by decide) hRest
  by_cases hFeed : c = '\x0c'
  · rw [if_neg hBackslash, if_neg hQuote, if_neg hNewline,
      if_neg hReturn, if_neg hTab, if_pos hFeed, hFeed]
    exact .letter (by decide) hRest
  rw [if_neg hBackslash, if_neg hQuote, if_neg hNewline,
    if_neg hReturn, if_neg hTab, if_neg hFeed]
  by_cases hControl : Text.isControl c = true
  · have hSmall : c.toNat < 160 := by
      simp only [Text.isControl, Bool.or_eq_true, Bool.and_eq_true,
        decide_eq_true_eq] at hControl
      omega
    rcases control_digits c.toNat hSmall with
      ⟨hHex, hLength, hValue⟩
    rw [if_pos hControl]
    have hKnown : ('u', 4, 4) ∈ codeEscapes := by decide
    exact .code hKnown (List.all_eq_true.mp hHex) hLength.ge hLength.le
      (fun hLess => absurd hLength hLess.ne) hValue.symm hRest
  · rw [if_neg hControl]
    exact .plain hQuote hBackslash hRest

/- A string is written as what means it. -/
theorem quoted_flatMap_escapeChar
    (s : List Char) :
    Quoted (s.flatMap escapeChar) s := by
  induction s with
  | nil => exact .nil
  | cons c s ih =>
      rw [List.flatMap_cons]
      exact quoted_escapeChar c ih

------------------------------------------------------------
-- Integers
------------------------------------------------------------

theorem digits_toDigits
    (n : Nat) :
    Digits (Nat.toDigits 10 n) :=
  fun _ hMember =>
    Nat.isDigit_of_mem_toDigits (by decide) (by decide) hMember

/- An integer is written as a numeral that denotes it. -/
theorem renderInt_spelled
    (n : Int64) :
    ∃ x : Numeral, x.Legal ∧ x.Denotes (.int n) ∧
      x.text = renderInt n := by
  refine ⟨⟨n.toInt < 0, Nat.toDigits 10 n.toInt.natAbs, none, none⟩,
    ?_, ?_, ?_⟩
  · exact
      { ints := digits_toDigits _
        fraction := fun _ hNone => nomatch hNone
        exponent := fun _ hNone => nomatch hNone
        mark := fun _ hNone => nomatch hNone
        some := Or.inl Nat.toDigits_ne_nil }
  · apply Numeral.Denotes.int n rfl rfl
    unfold Numeral.whole
    dsimp only
    rw [Nat.ofDigitChars_ten_toDigits]
    by_cases hNegative : n.toInt < 0
    · rw [if_pos (by simpa using hNegative)]
      omega
    · rw [if_neg (by simpa using hNegative)]
      omega
  · unfold Numeral.text Numeral.sign Numeral.body renderInt
    by_cases hNegative : n.toInt < 0
    · simp [hNegative]
    · simp [hNegative]

------------------------------------------------------------
-- Reals
------------------------------------------------------------

/- A text with a point in it, which is added if need be. -/
def pointed
    (text : List Char) : List Char :=
  if text.contains '.' then text else text ++ ['.', '0']

theorem pointed_append
    {cs : List Char}
    (text : List Char)
    (hNone : '.' ∉ cs) :
    pointed (cs ++ text) = cs ++ pointed text := by
  unfold pointed
  by_cases hPoint : '.' ∈ text
  · rw [if_pos (by simpa using Or.inr hPoint),
      if_pos (by simpa using hPoint)]
  · rw [if_neg (by simpa using ⟨hNone, hPoint⟩),
      if_neg (by simpa using hPoint), List.append_assoc]

theorem not_mem_of_digits
    {cs : List Char}
    (hDigits : Digits cs) :
    '.' ∉ cs :=
  fun hPoint => absurd (hDigits _ hPoint) (by decide)

theorem digits_append
    {cs ds : List Char}
    (hFirst : Digits cs)
    (hSecond : Digits ds) :
    Digits (cs ++ ds) := by
  intro c hMember
  rcases List.mem_append.mp hMember with hMember | hMember
  · exact hFirst c hMember
  · exact hSecond c hMember

theorem digits_zeros
    (n : Nat) :
    Digits (List.replicate n '0') := by
  intro c hMember
  rw [List.eq_of_mem_replicate hMember]
  decide

/-
  Positional notation has digits around its point, and they
  stand for the decimal.
-/
theorem positional_spelled
    (digits : Nat)
    (p : Int) :
    ∃ ints frac, Digits ints ∧ Digits frac ∧ ints ≠ [] ∧
      pointed (Binary.positional digits p) =
        ints ++ '.' :: frac ∧
      (Nat.ofDigitChars 10 (ints ++ frac) 0 : ℚ) *
        10 ^ (-(frac.length : Int)) = digits * 10 ^ p := by
  have hDigits := digits_toDigits digits
  unfold Binary.positional
  dsimp only
  by_cases hWhole : 0 ≤ p
  · rw [if_pos hWhole]
    rcases Int.eq_ofNat_of_zero_le hWhole with ⟨n, rfl⟩
    have hAll := digits_append hDigits (digits_zeros n)
    refine ⟨_, ['0'], hAll, digits_zeros 1, ?_, ?_, ?_⟩
    · simp [Nat.toDigits_ne_nil]
    · rw [pointed, if_neg]
      · rfl
      · simpa using not_mem_of_digits hAll
    · rw [Nat.ofDigitChars_append, Nat.ofDigitChars_append,
        Nat.ofDigitChars_ten_toDigits,
        Nat.ofDigitChars_replicate_zero]
      simp [Nat.ofDigitChars_cons]
      ring
  · rw [if_neg hWhole]
    generalize hPadded : List.replicate
      ((-p).toNat + 1 - (Nat.toDigits 10 digits).length) '0' ++
        Nat.toDigits 10 digits = padded
    have hLength : (-p).toNat < padded.length := by
      rw [← hPadded, List.length_append, List.length_replicate]
      omega
    have hAll : Digits padded := by
      rw [← hPadded]
      exact digits_append (digits_zeros _) hDigits
    refine ⟨padded.take (padded.length - (-p).toNat),
      padded.drop (padded.length - (-p).toNat),
      fun c hMember => hAll c (List.mem_of_mem_take hMember),
      fun c hMember => hAll c (List.mem_of_mem_drop hMember),
      ?_, ?_, ?_⟩
    · rw [← List.length_pos_iff, List.length_take]
      omega
    · rw [pointed, if_pos]
      simp
    · rw [List.take_append_drop, ← hPadded, Nat.ofDigitChars_append,
        Nat.ofDigitChars_replicate_zero, Nat.mul_zero,
        Nat.ofDigitChars_ten_toDigits, hPadded, List.length_drop]
      congr 2
      omega

/- A finite real is written as a numeral that denotes it. -/
theorem renderReal_spelled
    {x : Binary64}
    (hFinite : x.isFinite = true) :
    ∃ y : Numeral, y.Legal ∧ y.Denotes (.real x) ∧
      y.text = renderReal x := by
  rcases Binary64.render_reads_back hFinite with
    ⟨negative, digits, p, hText, hRead⟩
  rcases positional_spelled digits p with
    ⟨ints, frac, hInts, hFrac, hSome, hPointed, hValue⟩
  have hNearest : (Numeral.mk negative ints (some frac) none).nearest =
      x := by
    apply hRead
    simpa [Numeral.fractionDigits, Numeral.exponentDigits] using hValue
  refine ⟨⟨negative, ints, some frac, none⟩, ?_, ?_, ?_⟩
  · exact
      { ints := hInts
        fraction := hFrac
        exponent := fun _ hNone => nomatch hNone
        mark := fun _ hNone => nomatch hNone
        some := Or.inl hSome }
  · rw [← hNearest]
    exact .real (Or.inl (Option.some_ne_none _))
  · change _ = pointed x.render
    rw [hText, pointed_append, hPointed]
    · simp [Numeral.text, Numeral.sign, Numeral.body]
    · split <;> decide

end Term

end Stratagem

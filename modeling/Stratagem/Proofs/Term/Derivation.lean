import Mathlib.Data.List.TakeWhile
import Stratagem.Proofs.Steps
import Stratagem.Proofs.Term.Grammar

/-
  What is read can be derived.

  Each part of the reader takes a text that the grammar
  derives, and perhaps blanks behind it: the reader has to
  look past blanks to see whether annotations follow.

  Key definitions include:
    * `Reader.CoreReads`

  Main declarations:
    * `Reader.number_derives`
    * `Reader.stringBody_derives`
    * `Reader.core_cases`
    * `Reader.term_derives`
    * `Term.spellsText_of_read`
-/

namespace Stratagem

open Grammar

------------------------------------------------------------
-- Cursors
------------------------------------------------------------

namespace Cursor

theorem rest_next
    {c : Cursor}
    {ch : Char}
    {cs : List Char}
    (hRest : c.rest = ch :: cs) :
    c.next.rest = cs := by
  unfold next
  rw [hRest]

theorem taken_append_skip
    (c : Cursor)
    (p : Char → Bool) :
    c.taken p ++ (c.skip p).rest = c.rest :=
  List.takeWhile_append_dropWhile

theorem of_mem_taken
    {c : Cursor}
    {p : Char → Bool}
    {ch : Char}
    (hTaken : ch ∈ c.taken p) :
    p ch = true :=
  List.mem_takeWhile_imp hTaken

/- What is skipped are blanks. -/
theorem exists_blanks
    (c : Cursor) :
    ∃ blanks, Blanks blanks ∧ c.rest = blanks ++ c.skipBlanks.rest :=
  ⟨c.taken Text.isBlank, fun _ hTaken => of_mem_taken hTaken,
    (c.taken_append_skip Text.isBlank).symm⟩

/- Where no blank stands, none is skipped. -/
theorem skipBlanks_of_rest
    {c : Cursor}
    {ch : Char}
    {cs : List Char}
    (hRest : c.rest = ch :: cs)
    (hBlank : Text.isBlank ch = false) :
    c.skipBlanks = c := by
  have hOther : ¬ Text.isBlank ch = true := by
    rw [hBlank]
    exact Bool.false_ne_true
  unfold skipBlanks skip taken
  rw [hRest, List.dropWhile_cons_of_neg hOther,
    List.takeWhile_cons_of_neg hOther, ← hRest]
  rfl

end Cursor

theorem Grammar.blanks_nil : Blanks [] :=
  fun _ hNone => absurd hNone List.not_mem_nil

theorem Grammar.Blanks.append
    {cs ds : List Char}
    (hFirst : Blanks cs)
    (hNext : Blanks ds) :
    Blanks (cs ++ ds) := by
  intro c hc
  rcases List.mem_append.mp hc with hLeft | hRight
  · exact hFirst c hLeft
  · exact hNext c hRight

/- Blanks before a term are part of it. -/
theorem Grammar.Spells.blanks_append
    {blanks cs : List Char}
    {t : Term}
    (hBlanks : Blanks blanks)
    (hSpells : Spells cs t) :
    Spells (blanks ++ cs) t := by
  cases hSpells with
  | plain before core =>
      rw [← List.append_assoc]
      exact Spells.plain (hBlanks.append before) core
  | annotated before core open' terms close =>
      rw [← List.append_assoc]
      exact Spells.annotated (hBlanks.append before) core open'
        terms close

theorem Grammar.SpellsSome.blanks_append
    {blanks cs : List Char}
    {ts : List Term}
    (hBlanks : Blanks blanks)
    (hSpells : SpellsSome cs ts) :
    SpellsSome (blanks ++ cs) ts := by
  cases hSpells with
  | one only => exact SpellsSome.one (only.blanks_append hBlanks)
  | more first comma others =>
      rw [← List.append_assoc]
      exact SpellsSome.more (first.blanks_append hBlanks) comma
        others

namespace Reader

------------------------------------------------------------
-- Numbers
------------------------------------------------------------

/- Marks of exponents. -/
def isScale
    (c : Char) : Bool :=
  c == 'e' || c == 'E'

theorem isScale_iff
    {c : Char} :
    isScale c = true ↔ c = 'e' ∨ c = 'E' := by
  simp [isScale]

theorem beq_some_eq_any
    (o : Option Char)
    (d : Char) :
    (o == some d) = o.any (· == d) := by
  cases o with
  | none => rfl
  | some c => rfl

theorem beq_scale_eq_any
    (o : Option Char) :
    (o == some 'e' || o == some 'E') = o.any isScale := by
  cases o with
  | none => rfl
  | some c => rfl

/- A part of a number: a mark and the digits behind it. -/
def markedText
    (o : Option (Char × List Char)) : List Char :=
  (o.map fun (m, ds) => m :: ds).getD []

/- A part that was read has its mark, and digits behind it. -/
theorem exists_marked
    (c : Cursor)
    (p : Char → Bool) :
    ∃ o : Option (Char × List Char),
      o.isSome = c.rest.head?.any p ∧
      (∀ m ∈ o.map Prod.fst, p m = true) ∧
      (o.map Prod.snd).getD [] =
        (if c.rest.head?.any p then c.next.taken Char.isDigit
          else []) ∧
      Digits ((o.map Prod.snd).getD []) ∧
      c.rest = markedText o ++
        (if c.rest.head?.any p then c.next.skip Char.isDigit
          else c).rest := by
  cases hAny : c.rest.head?.any p with
  | false =>
      exact ⟨none, rfl, nofun, rfl, nofun, rfl⟩
  | true =>
      rcases (Option.any_eq_true _ _).mp hAny with ⟨m, hHead, hMark⟩
      rcases List.head?_eq_some_iff.mp hHead with ⟨cs, hRest⟩
      have hDigits := c.next.taken_append_skip Char.isDigit
      rw [Cursor.rest_next hRest] at hDigits
      refine ⟨some (m, c.next.taken Char.isDigit), rfl, ?_, rfl,
        fun _ hTaken => Cursor.of_mem_taken hTaken, ?_⟩
      · intro m' hIs
        rwa [← Option.some.inj hIs]
      · simpa [hRest, markedText] using hDigits.symm

/- An integer that was read has the value of its digits. -/
theorem integer_eq_ok
    {negative : Bool}
    {digits : List Char}
    {p : Payload}
    (hRead : integer negative digits = .ok p) :
    ∃ value : Int64, p = .int value ∧
      value.toInt = if negative then -(decimalValue digits : Int)
        else decimalValue digits := by
  unfold integer at hRead
  dsimp only at hRead
  generalize (if negative then -(decimalValue digits : Int)
    else decimalValue digits) = n at hRead ⊢
  by_cases hRange :
      Int64.minValue.toInt ≤ n ∧ n ≤ Int64.maxValue.toInt
  · rw [if_pos hRange] at hRead
    cases hRead
    refine ⟨_, rfl, ?_⟩
    rw [Int64.toInt_ofInt]
    have hLow : Int64.minValue.toInt = -9223372036854775808 := rfl
    have hHigh : Int64.maxValue.toInt = 9223372036854775807 := rfl
    apply Int.bmod_eq_of_le
    all_goals simp only [Int64.size]; omega
  · rw [if_neg hRange] at hRead
    cases hRead

/- A number behind its sign has digits where they should be. -/
theorem number_derives
    {negative : Bool}
    {c c' : Cursor}
    {p : Payload}
    (hRead : number negative c = .ok (p, c')) :
    ∃ x : Numeral, x.negative = negative ∧ x.Legal ∧
      x.Denotes p ∧ c.rest = x.body ++ c'.rest := by
  have hInts := c.taken_append_skip Char.isDigit
  unfold number at hRead
  dsimp only at hRead
  rw [beq_some_eq_any, beq_scale_eq_any] at hRead
  rcases exists_marked (c.skip Char.isDigit) (· == '.') with
    ⟨fraction, hFraction, hPoint, hFractionText, hFractionDigits,
      hAfterInts⟩
  rw [← hFraction] at hRead hAfterInts hFractionText
  generalize (if fraction.isSome then
    (c.skip Char.isDigit).next.skip Char.isDigit
    else c.skip Char.isDigit) = c₂ at hRead hAfterInts
  rcases exists_marked c₂ isScale with
    ⟨exponent, hExponent, hMark, hExponentText, hExponentDigits,
      hAfterFraction⟩
  rw [← hExponent] at hRead hAfterFraction hExponentText
  let x : Numeral :=
    ⟨negative, c.taken Char.isDigit, fraction.map Prod.snd, exponent⟩
  have hBody : ∀ last : Cursor,
      last = (if exponent.isSome then c₂.next.skip Char.isDigit
        else c₂) → c.rest = x.body ++ last.rest := by
    rintro last rfl
    have hPart : markedText fraction =
        ((fraction.map Prod.snd).map fun ds => '.' :: ds).getD [] := by
      cases fraction with
      | none => rfl
      | some part =>
          have hDot := beq_iff_eq.mp (hPoint part.1 rfl)
          exact congrArg (· :: part.2) hDot
    rw [← hInts, hAfterInts, hAfterFraction, hPart]
    simp [x, Numeral.body, markedText]
  rw [← hFractionText, ← hExponentText] at hRead
  split at hRead
  case isTrue => cases hRead
  case isFalse hSome =>
      have hLegal : x.Legal :=
        { ints := fun _ hTaken => Cursor.of_mem_taken hTaken
          fraction := hFractionDigits
          exponent := hExponentDigits
          mark := fun m hm => isScale_iff.mp (hMark m hm)
          some := by
            simp only [List.isEmpty_iff, not_and_or] at hSome
            exact hSome }
      split at hRead
      case isTrue hShown =>
          cases hRead
          refine ⟨x, rfl, hLegal, Numeral.Denotes.real ?_, hBody _ rfl⟩
          simpa [x, Option.isSome_iff_ne_none] using hShown
      case isFalse hPlain =>
          rw [not_or, Option.not_isSome_iff_eq_none,
            Option.not_isSome_iff_eq_none] at hPlain
          split at hRead
          case h_1 q hInteger =>
              cases hRead
              rcases integer_eq_ok hInteger with ⟨value, rfl, hValue⟩
              refine ⟨x, rfl, hLegal, ?_, hBody _ rfl⟩
              refine Numeral.Denotes.int value ?_ hPlain.2 hValue
              simp [x, hPlain.1]
          case h_2 => cases hRead

------------------------------------------------------------
-- Strings
------------------------------------------------------------

theorem mem_letterEscapes_iff
    {e ch : Char} :
    (e, ch) ∈ letterEscapes ↔ simpleEscape? e = some ch := by
  unfold simpleEscape?
  split <;> simp_all [letterEscapes, eq_comm]

theorem mem_codeEscapes_iff
    {e : Char}
    {least most : Nat} :
    (e, least, most) ∈ codeEscapes ↔
      codeEscape? e = some (least, most) := by
  unfold codeEscape?
  split <;> simp_all [codeEscapes, eq_comm]

theorem charOfCode?_eq_some_iff
    {n : Nat}
    {ch : Char} :
    charOfCode? n = some ch ↔ ch.toNat = n := by
  unfold charOfCode?
  by_cases hValid : n.isValidChar
  · rw [dif_pos hValid, Option.some.injEq]
    constructor
    · rintro rfl
      rfl
    · intro hSame
      apply Char.toNat_inj.mp
      rw [hSame]
      rfl
  · rw [dif_neg hValid]
    constructor
    · intro hNone
      cases hNone
    · intro hSame
      rw [← hSame] at hValid
      exact absurd ch.valid hValid

/- At most so many characters of a class, as many as there are. -/
theorem takeWhile_take_spec
    (p : Char → Bool)
    (most : Nat)
    (cs : List Char) :
    let taken := (cs.take most).takeWhile p
    cs = taken ++ cs.drop taken.length ∧ taken.length ≤ most ∧
      (taken.length < most →
        ∀ d, (cs.drop taken.length).head? = some d → p d = false) := by
  induction most generalizing cs with
  | zero => simp
  | succ most ih =>
      cases cs with
      | nil => simp
      | cons c cs =>
          have hRest := ih cs
          by_cases hClass : p c = true
          · simp only [List.take_succ_cons,
              List.takeWhile_cons_of_pos hClass, List.length_cons,
              List.drop_succ_cons, List.cons_append]
            refine ⟨?_, ?_, ?_⟩
            · rw [← hRest.1]
            · exact Nat.succ_le_succ hRest.2.1
            · intro hFewer
              exact hRest.2.2 (Nat.lt_of_succ_lt_succ hFewer)
          · simp [List.takeWhile_cons_of_neg hClass,
              Bool.not_eq_true _ ▸ hClass]

/- A string ends at a quote that no backslash escapes. -/
theorem stringBody_derives
    {cs : List Char}
    {offset : Nat}
    {s : List Char}
    {c : Cursor}
    (hRead : stringBody cs offset = .ok (s, c)) :
    ∃ used, cs = used ++ '"' :: c.rest ∧ Quoted used s := by
  fun_induction stringBody cs offset generalizing s c with
  | case1 => cases hRead
  | case2 offset rest =>
      cases hRead
      exact ⟨[], rfl, Quoted.nil⟩
  | case3 => cases hRead
  | case4 offset e rest ch hLetter ih =>
      rcases ok_bind.mp hRead with ⟨⟨more, last⟩, hMore, hSame⟩
      cases hSame
      rcases ih hMore with ⟨used, rfl, hQuoted⟩
      exact ⟨_, rfl,
        Quoted.letter (mem_letterEscapes_iff.mpr hLetter) hQuoted⟩
  | case5 => cases hRead
  | case6 => cases hRead
  | case7 offset e rest least most hCode hNone digits hEnough ch
      hNames =>
      rename_i ih
      rcases ok_bind.mp hRead with ⟨⟨more, last⟩, hMore, hSame⟩
      cases hSame
      rcases ih hMore with ⟨used, hUsed, hQuoted⟩
      rcases takeWhile_take_spec isHexDigit most rest with
        ⟨hSplit, hBounded, hMaximal⟩
      refine ⟨'\\' :: e :: (digits ++ used), ?_, ?_⟩
      · rw [List.cons_append, List.cons_append, List.append_assoc,
          ← hUsed, ← hSplit]
      · refine Quoted.code (mem_codeEscapes_iff.mpr hCode)
          (fun d hd => List.mem_takeWhile_imp hd)
          (Nat.not_lt.mp hEnough) hBounded ?_
          (charOfCode?_eq_some_iff.mp hNames) hQuoted
        intro hFewer d hHead
        apply hMaximal hFewer
        rw [hUsed, List.head?_append, hHead]
        rfl
  | case8 => cases hRead
  | case9 offset ch rest hQuote hLast hEscape ih =>
      rcases ok_bind.mp hRead with ⟨⟨more, last⟩, hMore, hSame⟩
      cases hSame
      rcases ih hMore with ⟨used, rfl, hQuoted⟩
      refine ⟨ch :: used, rfl, Quoted.plain hQuote ?_ hQuoted⟩
      intro hSlash
      cases used with
      | nil => exact hEscape _ _ hSlash rfl
      | cons d used => exact hEscape _ _ hSlash rfl

------------------------------------------------------------
-- Terms
------------------------------------------------------------

/- A name is as long as it can be. -/
theorem name_derives
    {c : Cursor}
    {ch : Char}
    {rest : List Char}
    (hRest : c.rest = ch :: rest)
    (hStart : Term.isNameStart ch = true)
    (hNumber : ¬ (ch = '-' ∧ rest.head?.any Term.startsNumber)) :
    Identifier (name c).1 ∧ c.rest = (name c).1 ++ (name c).2.rest := by
  have hSplit := c.next.taken_append_skip Term.isNameChar
  rw [Cursor.rest_next hRest] at hSplit
  have hName : name c =
      (ch :: c.next.taken Term.isNameChar,
        c.next.skip Term.isNameChar) := by
    unfold name
    rw [hRest]
    dsimp only
    rw [if_pos hStart]
  rw [hName]
  refine ⟨Identifier.mk hStart ?_ ?_, ?_⟩
  · intro d hd
    exact Cursor.of_mem_taken hd
  · intro hDash d hHead
    rw [Bool.eq_false_iff]
    intro hDigit
    apply hNumber
    refine ⟨hDash, ?_⟩
    rw [← hSplit, List.head?_append, hHead]
    exact hDigit
  · rw [hRest, List.cons_append, hSplit]

theorem name_of_not_start
    {c : Cursor}
    {ch : Char}
    {cs : List Char}
    (hStart : c.rest = ch :: cs)
    (hName : ¬ Term.isNameStart ch = true) :
    name c = ([], c) := by
  unfold name
  rw [hStart]
  dsimp only
  rw [if_neg hName]

/- The ways in which a term is read, its annotations apart. -/
inductive CoreReads
    (n : Nat)
    (c : Cursor) : Payload → Cursor → Prop where
  | list
      {cs : List Char}
      {ts : List Term}
      {c' : Cursor}
      (start : c.rest = '[' :: cs)
      (read : terms n ']' c.next = .ok (ts, c')) :
      CoreReads n c (.list ts) c'
  | tuple
      {cs : List Char}
      {ts : List Term}
      {c' : Cursor}
      (start : c.rest = '(' :: cs)
      (read : terms n ')' c.next = .ok (ts, c')) :
      CoreReads n c (.appl "" ts) c'
  | application
      {cs : List Char}
      {ts : List Term}
      {c' : Cursor}
      (constructor : Identifier (name c).1)
      (start : c.rest = (name c).1 ++ (name c).2.rest)
      (behind : (name c).2.skipBlanks.rest = '(' :: cs)
      (read : terms n ')' (name c).2.skipBlanks.next = .ok (ts, c')) :
      CoreReads n c (.appl (String.ofList (name c).1) ts) c'
  | constant
      (constructor : Identifier (name c).1)
      (start : c.rest = (name c).1 ++ (name c).2.rest) :
      CoreReads n c (.appl (String.ofList (name c).1) [])
        (name c).2.skipBlanks
  | string
      {cs s : List Char}
      {c' : Cursor}
      (start : c.rest = '"' :: cs)
      (read : stringBody cs (c.offset + 1) = .ok (s, c')) :
      CoreReads n c (.str (String.ofList s)) c'
  | placeholder
      {cs ds : List Char}
      {t : Term}
      {c' : Cursor}
      (start : c.rest = '<' :: cs)
      (read : term n c.next = .ok (t, c'))
      (close : c'.skipBlanks.rest = '>' :: ds) :
      CoreReads n c (.placeholder t) c'.skipBlanks.next
  | number
      {p : Payload}
      {c' : Cursor}
      (read : number false c = .ok (p, c')) :
      CoreReads n c p c'
  | negative
      {cs : List Char}
      {p : Payload}
      {c' : Cursor}
      (start : c.rest = '-' :: cs)
      (read : number true c.next = .ok (p, c')) :
      CoreReads n c p c'

/- What was read behind a name or an opening bracket. -/
theorem appl_cases
    {n : Nat}
    {c c' : Cursor}
    {ch : Char}
    {cs : List Char}
    {p : Payload}
    (hStart : c.rest = ch :: cs)
    (hAppl : ch = '(' ∨ Term.isNameStart ch = true)
    (hNumber : ¬ (ch = '-' ∧ cs.head?.any Term.startsNumber))
    (hRead :
      (if (name c).2.skipBlanks.rest.head? == some '(' then
        terms n ')' (name c).2.skipBlanks.next >>= fun r =>
          pure (.appl (String.ofList (name c).1) r.1, r.2)
      else
        pure (.appl (String.ofList (name c).1) [],
          (name c).2.skipBlanks)) =
        (.ok (p, c') : Except FormatError (Payload × Cursor))) :
    CoreReads n c p c' := by
  by_cases hName : Term.isNameStart ch = true
  · rcases name_derives hStart hName hNumber with
      ⟨hIdentifier, hText⟩
    by_cases hOpen :
        ((name c).2.skipBlanks.rest.head? == some '(') = true
    · rw [if_pos hOpen] at hRead
      rcases ok_bind.mp hRead with ⟨⟨ts, c₁⟩, hTerms, hSame⟩
      cases hSame
      rw [beq_iff_eq, List.head?_eq_some_iff] at hOpen
      rcases hOpen with ⟨ds, hOpen⟩
      exact .application hIdentifier hText hOpen hTerms
    · rw [if_neg hOpen] at hRead
      cases hRead
      exact .constant hIdentifier hText
  · -- Without a name the bracket is where the cursor stands.
    have hOpen : ch = '(' := hAppl.resolve_right hName
    rw [hOpen] at hStart hName
    rw [name_of_not_start hStart hName] at hRead
    dsimp only at hRead
    rw [Cursor.skipBlanks_of_rest hStart rfl, hStart,
      if_pos (by simp)] at hRead
    rcases ok_bind.mp hRead with ⟨⟨ts, c₁⟩, hTerms, hSame⟩
    cases hSame
    exact .tuple hStart hTerms

/- A term that was read was read in one of these ways. -/
theorem core_cases
    {n : Nat}
    {c c' : Cursor}
    {p : Payload}
    (hRead : core n c = .ok (p, c')) :
    CoreReads n c p c' := by
  unfold core at hRead
  split at hRead
  case h_1 => cases hRead
  case h_2 ch cs hStart =>
      by_cases hList : ch = '['
      · rw [if_pos hList] at hRead
        rcases ok_bind.mp hRead with ⟨⟨ts, c₁⟩, hTerms, hSame⟩
        cases hSame
        exact .list (hList ▸ hStart) hTerms
      rw [if_neg hList] at hRead
      by_cases hString : ch = '"'
      · rw [if_pos hString] at hRead
        rcases ok_bind.mp hRead with ⟨⟨s, c₁⟩, hBody, hSame⟩
        cases hSame
        exact .string (hString ▸ hStart) hBody
      rw [if_neg hString] at hRead
      by_cases hHole : ch = '<'
      · rw [if_pos hHole] at hRead
        rcases ok_bind.mp hRead with ⟨⟨t, c₁⟩, hTerm, hNext⟩
        dsimp only at hNext
        split at hNext
        case h_1 => cases hNext
        case h_2 last ds hLast =>
            by_cases hClose : last = '>'
            · rw [if_pos hClose] at hNext
              cases hNext
              exact .placeholder (hHole ▸ hStart) hTerm
                (hClose ▸ hLast)
            · rw [if_neg hClose] at hNext
              cases hNext
      rw [if_neg hHole] at hRead
      by_cases hNumber : Term.startsNumber ch = true
      · rw [if_pos hNumber] at hRead
        exact .number hRead
      rw [if_neg hNumber] at hRead
      by_cases hNegative :
          ch = '-' ∧ cs.head?.any Term.startsNumber = true
      · rw [if_pos hNegative] at hRead
        exact .negative (hNegative.1 ▸ hStart) hRead
      rw [if_neg hNegative] at hRead
      by_cases hAppl : ch = '(' ∨ Term.isNameStart ch = true
      · rw [if_pos hAppl] at hRead
        exact appl_cases hStart hAppl hNegative hRead
      · rw [if_neg hAppl] at hRead
        cases hRead

mutual

/- A term was read, and blanks behind it perhaps. -/
theorem term_derives
    {n : Nat}
    {c c' : Cursor}
    {t : Term}
    (hRead : term n c = .ok (t, c')) :
    ∃ used blanks, c.rest = used ++ (blanks ++ c'.rest) ∧
      Blanks blanks ∧ Spells used t := by
  match n with
  | 0 =>
      rw [term] at hRead
      cases hRead
  | n + 1 =>
      rw [term] at hRead
      rcases ok_bind.mp hRead with ⟨⟨p, c₁⟩, hCore, hNext⟩
      rcases core_derives hCore with
        ⟨used, blanks, hUsed, hBlanks, hSpells⟩
      rcases c.exists_blanks with ⟨before, hBefore, hStart⟩
      rcases c₁.exists_blanks with ⟨gap, hGap, hBehind⟩
      dsimp only at hNext
      split at hNext
      case isTrue hOpen =>
          rcases ok_bind.mp hNext with ⟨⟨ts, c₂⟩, hTerms, hSame⟩
          cases hSame
          rcases terms_derives hTerms with
            ⟨notes, gap', hNotes, hGap', hSpelled⟩
          rw [beq_iff_eq, List.head?_eq_some_iff] at hOpen
          rcases hOpen with ⟨tail, hTail⟩
          rw [Cursor.rest_next hTail] at hNotes
          refine ⟨_, [], ?_, blanks_nil,
            Spells.annotated hBefore hSpells (hBlanks.append hGap)
              hSpelled hGap'⟩
          rw [hStart, hUsed, hBehind, hTail, hNotes]
          simp
      case isFalse =>
          cases hNext
          refine ⟨before ++ used, blanks ++ gap, ?_,
            hBlanks.append hGap, Spells.plain hBefore hSpells⟩
          rw [hStart, hUsed, hBehind]
          simp
termination_by (n, 0)

theorem core_derives
    {n : Nat}
    {c c' : Cursor}
    {p : Payload}
    (hRead : core n c = .ok (p, c')) :
    ∃ used blanks, c.rest = used ++ (blanks ++ c'.rest) ∧
      Blanks blanks ∧ SpellsCore used p := by
  cases core_cases hRead with
  | list hStart hTerms =>
      rcases terms_derives hTerms with
        ⟨used, gap, hUsed, hGap, hSpelled⟩
      rw [Cursor.rest_next hStart] at hUsed
      refine ⟨_, [], ?_, blanks_nil, .list hSpelled hGap⟩
      rw [hStart, hUsed]
      simp
  | tuple hStart hTerms =>
      rcases terms_derives hTerms with
        ⟨used, gap, hUsed, hGap, hSpelled⟩
      rw [Cursor.rest_next hStart] at hUsed
      refine ⟨_, [], ?_, blanks_nil, .tuple hSpelled hGap⟩
      rw [hStart, hUsed]
      simp
  | application hName hText hOpen hTerms =>
      rcases (name c).2.exists_blanks with ⟨gap, hGap, hBehind⟩
      rcases terms_derives hTerms with
        ⟨used, gap', hUsed, hGap', hSpelled⟩
      rw [Cursor.rest_next hOpen] at hUsed
      refine ⟨_, [], ?_, blanks_nil,
        .application hName hGap hSpelled hGap'⟩
      rw [hText, hBehind, hOpen, hUsed]
      simp
  | constant hName hText =>
      rcases (name c).2.exists_blanks with ⟨gap, hGap, hBehind⟩
      refine ⟨_, gap, ?_, hGap, .constant hName⟩
      rw [← hBehind]
      exact hText
  | string hStart hBody =>
      rcases stringBody_derives hBody with ⟨used, hUsed, hQuoted⟩
      refine ⟨_, [], ?_, blanks_nil, .string hQuoted⟩
      rw [hStart, hUsed]
      simp
  | @placeholder _ _ _ c₁ hStart hTerm hClose =>
      rcases term_derives hTerm with
        ⟨used, blanks, hUsed, hBlanks, hSpelled⟩
      rcases c₁.exists_blanks with ⟨gap, hGap, hBehind⟩
      rw [Cursor.rest_next hStart] at hUsed
      refine ⟨_, [], ?_, blanks_nil,
        .placeholder hSpelled (hBlanks.append hGap)⟩
      rw [hStart, hUsed, hBehind, Cursor.rest_next hClose, hClose]
      simp
  | number hNumber =>
      rcases number_derives hNumber with
        ⟨x, hSign, hLegal, hDenotes, hBody⟩
      refine ⟨x.text, [], ?_, blanks_nil, .number hLegal hDenotes⟩
      rw [hBody, Numeral.text, Numeral.sign, hSign]
      simp
  | negative hStart hNumber =>
      rcases number_derives hNumber with
        ⟨x, hSign, hLegal, hDenotes, hBody⟩
      rw [Cursor.rest_next hStart] at hBody
      refine ⟨x.text, [], ?_, blanks_nil, .number hLegal hDenotes⟩
      rw [hStart, hBody, Numeral.text, Numeral.sign, hSign]
      simp
termination_by (n, 2)

/- Terms were read up to the closing character. -/
theorem terms_derives
    {n : Nat}
    {close : Char}
    {c c' : Cursor}
    {ts : List Term}
    (hRead : terms n close c = .ok (ts, c')) :
    ∃ used gap, c.rest = used ++ (gap ++ close :: c'.rest) ∧
      Blanks gap ∧ SpellsTerms used ts := by
  rcases c.exists_blanks with ⟨before, hBefore, hStart⟩
  unfold terms at hRead
  dsimp only at hRead
  split at hRead
  case h_1 => cases hRead
  case h_2 ch rest hRest =>
      by_cases hClose : ch = close
      · rw [if_pos hClose] at hRead
        cases hRead
        refine ⟨[], before, ?_, hBefore, SpellsTerms.none⟩
        rw [hStart, Cursor.rest_next hRest, hRest, hClose]
        simp
      · rw [if_neg hClose] at hRead
        rcases someTerms_derives hRead with
          ⟨used, gap, hUsed, hGap, hSpelled⟩
        refine ⟨before ++ used, gap, ?_, hGap,
          SpellsTerms.some (hSpelled.blanks_append hBefore)⟩
        rw [hStart, hUsed]
        simp
termination_by (n, 1)

theorem someTerms_derives
    {n : Nat}
    {close : Char}
    {c c' : Cursor}
    {ts : List Term}
    (hRead : someTerms n close c = .ok (ts, c')) :
    ∃ used gap, c.rest = used ++ (gap ++ close :: c'.rest) ∧
      Blanks gap ∧ SpellsSome used ts := by
  match n with
  | 0 =>
      rw [someTerms] at hRead
      cases hRead
  | n + 1 =>
      rw [someTerms] at hRead
      rcases ok_bind.mp hRead with ⟨⟨t, c₁⟩, hFirst, hNext⟩
      rcases term_derives hFirst with
        ⟨used, blanks, hUsed, hBlanks, hSpelled⟩
      rcases c₁.exists_blanks with ⟨gap, hGap, hBehind⟩
      dsimp only at hNext
      split at hNext
      case h_1 => cases hNext
      case h_2 ch rest hRest =>
          by_cases hComma : ch = ','
          · rw [if_pos hComma] at hNext
            rcases ok_bind.mp hNext with ⟨⟨us, c₂⟩, hOthers, hSame⟩
            cases hSame
            rcases someTerms_derives hOthers with
              ⟨more, last, hMore, hLast, hOthersSpelled⟩
            rw [Cursor.rest_next hRest] at hMore
            refine ⟨_, last, ?_, hLast,
              SpellsSome.more hSpelled (hBlanks.append hGap)
                hOthersSpelled⟩
            rw [hUsed, hBehind, hRest, hComma, hMore]
            simp
          · rw [if_neg hComma] at hNext
            by_cases hClose : ch = close
            · rw [if_pos hClose] at hNext
              cases hNext
              refine ⟨used, blanks ++ gap, ?_, hBlanks.append hGap,
                SpellsSome.one hSpelled⟩
              rw [hUsed, hBehind, Cursor.rest_next hRest, hRest, hClose]
              simp
            · rw [if_neg hClose] at hNext
              cases hNext
termination_by (n, 0)

end

end Reader

------------------------------------------------------------
-- Whole Texts
------------------------------------------------------------

/- A text that is read spells what is read. -/
theorem Term.spellsText_of_read
    {s : String}
    {t : Term}
    (hRead : Term.read s = .ok t) :
    SpellsText s.toList t := by
  unfold Term.read at hRead
  rcases ok_bind.mp hRead with ⟨⟨u, c⟩, hTerm, hNext⟩
  rcases Reader.term_derives hTerm with
    ⟨used, blanks, hUsed, hBlanks, hSpelled⟩
  rcases c.exists_blanks with ⟨gap, hGap, hBehind⟩
  dsimp only at hNext hUsed
  split at hNext
  case h_1 hEnd =>
      cases hNext
      rw [hEnd, List.append_nil] at hBehind
      rw [hUsed, hBehind]
      exact SpellsText.mk hSpelled (hBlanks.append hGap)
  case h_2 => cases hNext

end Stratagem

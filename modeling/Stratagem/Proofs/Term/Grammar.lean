import Stratagem.Term.Reader

/-
  The grammar of terms.

  A text spells a term when it can be derived by the rules
  below, in which blanks may stand before every token.  The
  rules say nothing about how a text is read: no character is
  looked at twice, and no rule is tried before another.

  Key definitions include:
    * `Grammar.Blanks`
    * `Grammar.Identifier`
    * `Grammar.Numeral`
    * `Grammar.Quoted`
    * `Grammar.Spells`
    * `Grammar.SpellsText`
-/

namespace Stratagem

namespace Grammar

------------------------------------------------------------
-- Tokens
------------------------------------------------------------

/- Only blanks, or nothing. -/
def Blanks
    (cs : List Char) : Prop :=
  ∀ c ∈ cs, Text.isBlank c = true

/- Only decimal digits, or nothing. -/
def Digits
    (cs : List Char) : Prop :=
  ∀ c ∈ cs, c.isDigit = true

/-
  A name.  What could be the start of a negative number is
  none.
-/
inductive Identifier : List Char → Prop where
  | mk
      {c : Char}
      {cs : List Char}
      (start : Term.isNameStart c = true)
      (others : ∀ d ∈ cs, Term.isNameChar d = true)
      (noNumber : c = '-' → ∀ d, cs.head? = some d →
        Term.startsNumber d = false) :
      Identifier (c :: cs)

/- The parts of a number; the point and the mark may be left out. -/
structure Numeral where
  negative : Bool
  ints : List Char
  fraction : Option (List Char)
  exponent : Option (Char × List Char)

namespace Numeral

/- The sign that a number is written with. -/
def sign
    (x : Numeral) : List Char :=
  if x.negative then ['-'] else []

/- The digits behind the point. -/
def fractionDigits
    (x : Numeral) : List Char :=
  x.fraction.getD []

/- The digits of the exponent. -/
def exponentDigits
    (x : Numeral) : List Char :=
  (x.exponent.map Prod.snd).getD []

/- The text behind the sign. -/
def body
    (x : Numeral) : List Char :=
  x.ints ++
    ((x.fraction.map fun ds => '.' :: ds).getD [] ++
      (x.exponent.map fun (e, ds) => e :: ds).getD [])

/- The text of a number. -/
def text
    (x : Numeral) : List Char :=
  x.sign ++ x.body

/- Digits stand where they should, and there are some. -/
structure Legal
    (x : Numeral) : Prop where
  ints : Digits x.ints
  fraction : Digits x.fractionDigits
  exponent : Digits x.exponentDigits
  mark : ∀ e ∈ x.exponent.map Prod.fst, e = 'e' ∨ e = 'E'
  some : x.ints ≠ [] ∨ x.fractionDigits ≠ []

/- The number before the point, with its sign. -/
def whole
    (x : Numeral) : Int :=
  let n : Int := Nat.ofDigitChars 10 x.ints 0
  if x.negative then -n else n

/- The real nearest to the decimal. -/
def nearest
    (x : Numeral) : Binary64 :=
  Binary64.ofDecimal x.negative
    (Nat.ofDigitChars 10 (x.ints ++ x.fractionDigits) 0)
    (Nat.ofDigitChars 10 x.exponentDigits 0 -
      x.fractionDigits.length)

/-
  What a number stands for: an integer of sixty-four bits, or
  a real if there is a point or an exponent.
-/
inductive Denotes
    (x : Numeral) : Payload → Prop where
  | int
      (value : Int64)
      (noFraction : x.fraction = none)
      (noExponent : x.exponent = none)
      (exact : value.toInt = x.whole) :
      Denotes x (.int value)
  | real
      (shown : x.fraction ≠ none ∨ x.exponent ≠ none) :
      Denotes x (.real x.nearest)

end Numeral

/- Letters that stand for one character behind a backslash. -/
def letterEscapes : List (Char × Char) :=
  [('n', '\n'), ('r', '\r'), ('f', '\x0c'), ('t', '\t'),
    ('\\', '\\'), ('\'', '\''), ('"', '"')]

/-
  Letters before a code point, with the least and the greatest
  number of its digits.
-/
def codeEscapes : List (Char × Nat × Nat) :=
  [('u', 4, 4), ('U', 8, 8), ('x', 1, 4)]

/- What stands between quotes, and the string that it means. -/
inductive Quoted : List Char → List Char → Prop where
  | nil : Quoted [] []
  | plain
      {c : Char}
      {cs s : List Char}
      (noQuote : c ≠ '"')
      (noEscape : c ≠ '\\')
      (rest : Quoted cs s) :
      Quoted (c :: cs) (c :: s)
  | letter
      {e ch : Char}
      {cs s : List Char}
      (known : (e, ch) ∈ letterEscapes)
      (rest : Quoted cs s) :
      Quoted ('\\' :: e :: cs) (ch :: s)
  /- No digit is left out that could have been taken. -/
  | code
      {e ch : Char}
      {least most : Nat}
      {digits cs s : List Char}
      (known : (e, least, most) ∈ codeEscapes)
      (hex : ∀ d ∈ digits, Reader.isHexDigit d = true)
      (enough : least ≤ digits.length)
      (bounded : digits.length ≤ most)
      (maximal : digits.length < most →
        ∀ d, cs.head? = some d → Reader.isHexDigit d = false)
      (names : ch.toNat = Reader.hexValue digits)
      (rest : Quoted cs s) :
      Quoted ('\\' :: e :: (digits ++ cs)) (ch :: s)

------------------------------------------------------------
-- Terms
------------------------------------------------------------

mutual

/- A text with a term in it, and blanks before it. -/
inductive Spells : List Char → Term → Prop where
  | plain
      {blanks cs : List Char}
      {p : Payload}
      (before : Blanks blanks)
      (core : SpellsCore cs p) :
      Spells (blanks ++ cs) (.plain p)
  | annotated
      {blanks cs gap notes gap' : List Char}
      {p : Payload}
      {ts : List Term}
      (before : Blanks blanks)
      (core : SpellsCore cs p)
      (open' : Blanks gap)
      (terms : SpellsTerms notes ts)
      (close : Blanks gap') :
      Spells
        (blanks ++ (cs ++ (gap ++ '\x7b' :: (notes ++ (gap' ++ ['\x7d'])))))
        ((Term.plain p).annotated ts)

/- A text with a term in it, its annotations apart. -/
inductive SpellsCore : List Char → Payload → Prop where
  | list
      {cs gap : List Char}
      {ts : List Term}
      (terms : SpellsTerms cs ts)
      (close : Blanks gap) :
      SpellsCore ('[' :: (cs ++ (gap ++ [']']))) (.list ts)
  | tuple
      {cs gap : List Char}
      {ts : List Term}
      (terms : SpellsTerms cs ts)
      (close : Blanks gap) :
      SpellsCore ('(' :: (cs ++ (gap ++ [')']))) (.appl "" ts)
  | application
      {name cs gap gap' : List Char}
      {ts : List Term}
      (constructor : Identifier name)
      (open' : Blanks gap)
      (terms : SpellsTerms cs ts)
      (close : Blanks gap') :
      SpellsCore (name ++ (gap ++ '(' :: (cs ++ (gap' ++ [')']))))
        (.appl (String.ofList name) ts)
  | constant
      {name : List Char}
      (constructor : Identifier name) :
      SpellsCore name (.appl (String.ofList name) [])
  | string
      {cs s : List Char}
      (quoted : Quoted cs s) :
      SpellsCore ('"' :: (cs ++ ['"'])) (.str (String.ofList s))
  | placeholder
      {cs gap : List Char}
      {t : Term}
      (template : Spells cs t)
      (close : Blanks gap) :
      SpellsCore ('<' :: (cs ++ (gap ++ ['>']))) (.placeholder t)
  | number
      {x : Numeral}
      {p : Payload}
      (legal : x.Legal)
      (denotes : x.Denotes p) :
      SpellsCore x.text p

/- A text with any number of terms in it. -/
inductive SpellsTerms : List Char → List Term → Prop where
  | none : SpellsTerms [] []
  | some
      {cs : List Char}
      {ts : List Term}
      (terms : SpellsSome cs ts) :
      SpellsTerms cs ts

/- A text with terms in it, one or more, parted by commas. -/
inductive SpellsSome : List Char → List Term → Prop where
  | one
      {cs : List Char}
      {t : Term}
      (only : Spells cs t) :
      SpellsSome cs [t]
  | more
      {cs gap ds : List Char}
      {t : Term}
      {ts : List Term}
      (first : Spells cs t)
      (comma : Blanks gap)
      (others : SpellsSome ds ts) :
      SpellsSome (cs ++ (gap ++ ',' :: ds)) (t :: ts)

end

/- A whole text: a term, and blanks behind it. -/
inductive SpellsText : List Char → Term → Prop where
  | mk
      {cs blanks : List Char}
      {t : Term}
      (term : Spells cs t)
      (behind : Blanks blanks) :
      SpellsText (cs ++ blanks) t

end Grammar

end Stratagem

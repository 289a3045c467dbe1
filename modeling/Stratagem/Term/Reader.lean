import Stratagem.Term.Basic
import Stratagem.Term.Identifier
import Stratagem.Text.Blank
import Stratagem.Text.Size

/-
  Reading terms from text.

  Blanks may stand before every token.  The reader looks at
  one character, or at two where a dash may be the sign of a
  number.  The first violation ends the reading.

  Key definitions include:
    * `FormatError`
    * `FormatError.message`
    * `Cursor`
    * `Reader.term`
    * `Term.read`
-/

namespace Stratagem

------------------------------------------------------------
-- Errors
------------------------------------------------------------

/- How a text fails to be a term. -/
inductive FormatProblem where
  | endOfInput
  | invalidStart (c : Char)
  | unexpectedAfter (c : Char)
  | separator (close got : Char)
  | placeholderEnd (got : Char)
  | noNumber
  | integerRange (text : String)
  | unknownEscape (c : Char)
  | shortEscape (needed found : Nat)
  | codePoint (digits : String)

/- The wording of a problem. -/
def FormatProblem.message : FormatProblem → String
  | .endOfInput => "Unexpected end of input"
  | .invalidStart c => s!"Invalid term starting with '{c}'"
  | .unexpectedAfter c => s!"Unexpected '{c}' after the term"
  | .separator close got =>
      s!"Expected ',' or '{close}', got '{got}'"
  | .placeholderEnd got =>
      s!"Expected placeholder end, got '{got}'"
  | .noNumber => "Expected a number"
  | .integerRange text => s!"Integer out of range: {text}"
  | .unknownEscape c =>
      s!"Unrecognized escape sequence: '\\{c}'"
  | .shortEscape needed found =>
      s!"Expected at least {needed} digits to form a Unicode " ++
        s!"character escape sequence, found {found}"
  | .codePoint digits => s!"Invalid code point: {digits}"

/- A problem and the offset of the byte where it shows. -/
structure FormatError where
  problem : FormatProblem
  offset : Nat

/- The wording of an error. -/
def FormatError.message
    (e : FormatError) : String :=
  s!"{e.problem.message} (at offset {e.offset})"

------------------------------------------------------------
-- Cursors
------------------------------------------------------------

/- The text still to read and the offset of its first byte. -/
structure Cursor where
  rest : List Char
  offset : Nat

namespace Cursor

/- A failure at the cursor. -/
def fail
    {α : Type}
    (c : Cursor)
    (problem : FormatProblem) : Except FormatError α :=
  .error ⟨problem, c.offset⟩

/- Move past one character. -/
def next
    (c : Cursor) : Cursor :=
  match c.rest with
  | [] => c
  | ch :: rest => ⟨rest, c.offset + ch.utf8Size⟩

/- The characters of a class at the cursor. -/
def taken
    (c : Cursor)
    (p : Char → Bool) : List Char :=
  c.rest.takeWhile p

/- Move past the characters of a class. -/
def skip
    (c : Cursor)
    (p : Char → Bool) : Cursor :=
  ⟨c.rest.dropWhile p, c.offset + Text.byteCount (c.taken p)⟩

/- Move past blanks. -/
def skipBlanks
    (c : Cursor) : Cursor :=
  c.skip Text.isBlank

end Cursor

------------------------------------------------------------
-- Numbers
------------------------------------------------------------

namespace Reader

/- The value of decimal digits. -/
def decimalValue
    (ds : List Char) : Nat :=
  ds.foldl (fun n d => 10 * n + (d.toNat - 48)) 0

/- The value of hexadecimal digits. -/
def hexValue
    (ds : List Char) : Nat :=
  ds.foldl
    (fun n d =>
      16 * n +
        (if d.isDigit then d.toNat - 48
        else if d.toNat < 97 then d.toNat - 55
        else d.toNat - 87))
    0

/- Hexadecimal digits of either case. -/
def isHexDigit
    (c : Char) : Bool :=
  c.isDigit || ('a' ≤ c && c ≤ 'f') || ('A' ≤ c && c ≤ 'F')

/- An integer that fits sixty-four bits. -/
def integer
    (negative : Bool)
    (digits : List Char) : Except FormatProblem Payload :=
  let n : Int := decimalValue digits
  let n := if negative then -n else n
  if Int64.minValue.toInt ≤ n ∧ n ≤ Int64.maxValue.toInt then
    .ok (.int (Int64.ofInt n))
  else
    .error
      (.integerRange
        (String.ofList
          (if negative then '-' :: digits else digits)))

/- A real: digits, digits after the point, and an exponent. -/
def real
    (negative : Bool)
    (ints frac exp : List Char) : Payload :=
  .real
    (Binary64.ofDecimal negative (decimalValue (ints ++ frac))
      ((decimalValue exp : Int) - frac.length))

/-
  A number behind its sign.  It is an integer unless a point
  or an exponent follows the digits.
-/
def number
    (negative : Bool)
    (c : Cursor) :
    Except FormatError (Payload × Cursor) :=
  let ints := c.taken Char.isDigit
  let c₁ := c.skip Char.isDigit
  let pointed := c₁.rest.head? == some '.'
  let frac :=
    if pointed then c₁.next.taken Char.isDigit else []
  let c₂ :=
    if pointed then c₁.next.skip Char.isDigit else c₁
  let scaled :=
    c₂.rest.head? == some 'e' || c₂.rest.head? == some 'E'
  let exp :=
    if scaled then c₂.next.taken Char.isDigit else []
  let c₃ :=
    if scaled then c₂.next.skip Char.isDigit else c₂
  if ints.isEmpty ∧ frac.isEmpty then
    c.fail .noNumber
  else if pointed ∨ scaled then
    .ok (real negative ints frac exp, c₃)
  else
    match integer negative ints with
    | .ok p => .ok (p, c₃)
    | .error problem => c.fail problem

------------------------------------------------------------
-- Strings
------------------------------------------------------------

/- The character that one letter after a backslash names. -/
def simpleEscape? : Char → Option Char
  | 'n' => some '\n'
  | 'r' => some '\r'
  | 'f' => some '\x0c'
  | 't' => some '\t'
  | '\\' => some '\\'
  | '\'' => some '\''
  | '"' => some '"'
  | _ => none

/- Least and greatest number of digits after a letter. -/
def codeEscape? : Char → Option (Nat × Nat)
  | 'u' => some (4, 4)
  | 'U' => some (8, 8)
  | 'x' => some (1, 4)
  | _ => none

/- The character with a code point, if there is one. -/
def charOfCode?
    (n : Nat) : Option Char :=
  if h : n.isValidChar then
    some (Char.ofNatAux n h)
  else
    none

/-
  The rest of a string literal behind the opening quote, from
  an offset on.
-/
def stringBody
    (cs : List Char)
    (offset : Nat) :
    Except FormatError (List Char × Cursor) :=
  match cs with
  | [] => .error ⟨.endOfInput, offset⟩
  | '"' :: rest => .ok ([], ⟨rest, offset + 1⟩)
  | '\\' :: [] => .error ⟨.endOfInput, offset + 1⟩
  | '\\' :: e :: rest =>
      match simpleEscape? e, codeEscape? e with
      | some ch, _ => do
          let (more, c) ← stringBody rest (offset + 2)
          return (ch :: more, c)
      | none, some (least, most) =>
          let digits := (rest.take most).takeWhile isHexDigit
          if digits.length < least then
            .error ⟨.shortEscape least digits.length, offset⟩
          else
            match charOfCode? (hexValue digits) with
            | none =>
                .error
                  ⟨.codePoint (String.ofList digits), offset⟩
            | some ch => do
                let (more, c) ←
                  stringBody (rest.drop digits.length)
                    (offset + 2 + digits.length)
                return (ch :: more, c)
      | none, none => .error ⟨.unknownEscape e, offset⟩
  | ch :: rest => do
      let (more, c) ← stringBody rest (offset + ch.utf8Size)
      return (ch :: more, c)
termination_by cs.length
decreasing_by
  all_goals simp only [List.length_cons, List.length_drop]
  all_goals omega

------------------------------------------------------------
-- Terms
------------------------------------------------------------

/- A constructor name, possibly empty. -/
def name
    (c : Cursor) : List Char × Cursor :=
  match c.rest with
  | ch :: _ =>
      if Term.isNameStart ch then
        (ch :: c.next.taken Term.isNameChar,
          c.next.skip Term.isNameChar)
      else
        ([], c)
  | [] => ([], c)

mutual

/-
  A term and the cursor behind it.  The first argument bounds
  how deep calls nest; every second nested call is behind one
  more character.
-/
def term : Nat → Cursor → Except FormatError (Term × Cursor)
  | 0, c => c.fail .endOfInput
  | n + 1, c => do
      let (p, c) ← core n c.skipBlanks
      let c := c.skipBlanks
      if c.rest.head? == some '\x7b' then
        let (notes, c) ← terms n '\x7d' c.next
        return ((Term.plain p).annotated notes, c)
      else
        return (Term.plain p, c)

/- A term without its annotations. -/
def core
    (n : Nat)
    (c : Cursor) : Except FormatError (Payload × Cursor) :=
  match c.rest with
  | [] => c.fail .endOfInput
  | ch :: rest =>
      if ch = '[' then do
        let (ts, c) ← terms n ']' c.next
        return (.list ts, c)
      else if ch = '"' then do
        let (s, c) ← stringBody rest (c.offset + 1)
        return (.str (String.ofList s), c)
      else if ch = '<' then do
        let (t, c) ← term n c.next
        let c := c.skipBlanks
        match c.rest with
        | [] => c.fail .endOfInput
        | ch :: _ =>
            if ch = '>' then
              return (.placeholder t, c.next)
            else
              c.fail (.placeholderEnd ch)
      else if Term.startsNumber ch then
        number false c
      else if ch = '-' ∧ rest.head?.any Term.startsNumber then
        number true c.next
      else if ch = '(' ∨ Term.isNameStart ch then
        let (constructor, c) := name c
        let c := c.skipBlanks
        if c.rest.head? == some '(' then do
          let (ts, c) ← terms n ')' c.next
          return (.appl (String.ofList constructor) ts, c)
        else
          return (.appl (String.ofList constructor) [], c)
      else
        c.fail (.invalidStart ch)

/- Terms up to a closing character. -/
def terms
    (n : Nat)
    (close : Char)
    (c : Cursor) : Except FormatError (List Term × Cursor) :=
  let c := c.skipBlanks
  match c.rest with
  | [] => c.fail .endOfInput
  | ch :: _ =>
      if ch = close then
        .ok ([], c.next)
      else
        someTerms n close c

/- One term or more up to a closing character. -/
def someTerms : Nat → Char → Cursor →
    Except FormatError (List Term × Cursor)
  | 0, _, c => c.fail .endOfInput
  | n + 1, close, c => do
      let (t, c) ← term n c
      let c := c.skipBlanks
      match c.rest with
      | [] => c.fail .endOfInput
      | ch :: _ =>
          if ch = ',' then do
            let (ts, c) ← someTerms n close c.next
            return (t :: ts, c)
          else if ch = close then
            return ([t], c.next)
          else
            c.fail (.separator close ch)

end

end Reader

------------------------------------------------------------
-- Whole Texts
------------------------------------------------------------

/- The term that a text spells. -/
def Term.read
    (text : String) : Except FormatError Term := do
  let cs := text.toList
  let (t, c) ← Reader.term (2 * cs.length + 1) ⟨cs, 0⟩
  let c := c.skipBlanks
  match c.rest with
  | [] => return t
  | ch :: _ => c.fail (.unexpectedAfter ch)

end Stratagem

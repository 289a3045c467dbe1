import Stratagem.Binary.Number
import Stratagem.Toml.Tree

/-
  Texts, numbers and dates of TOML.

  Key definitions include:
    * `Toml.quotedText?`
    * `Toml.integer?`
    * `Toml.real?`
    * `Toml.scalar?`
-/

namespace Stratagem

namespace Toml

------------------------------------------------------------
-- Texts
------------------------------------------------------------

/- Characters that may stand in a text on one line. -/
def isTextChar
    (c : Char) : Bool :=
  c == '\t' || (0x20 ≤ c.toNat && c.toNat != 0x7f)

/- The value of a hexadecimal digit. -/
def hexDigit?
    (c : Char) : Option Nat :=
  if c.isDigit then some (c.toNat - 48)
  else if 'a' ≤ c ∧ c ≤ 'f' then some (c.toNat - 87)
  else if 'A' ≤ c ∧ c ≤ 'F' then some (c.toNat - 55)
  else none

/- The character with a number written in hexadecimal. -/
def scalarValue?
    (digits : List Char) : Option Char := do
  let ds ← digits.mapM hexDigit?
  let n := ds.foldl (fun n d => 16 * n + d) 0
  if n.isValidChar then some (Char.ofNat n) else none

/- The character that a letter behind a backslash stands for. -/
def escape? : Char → Option Char
  | 'b' => some (Char.ofNat 8)
  | 't' => some '\t'
  | 'n' => some '\n'
  | 'f' => some (Char.ofNat 12)
  | 'r' => some '\r'
  | '"' => some '"'
  | '\\' => some '\\'
  | _ => none

/- The text up to a double quote, behind what was read. -/
def basicText?
    (acc : List Char) :
    List Char → Option (String × List Char)
  | [] => none
  | '"' :: rest => some (String.ofList acc.reverse, rest)
  | '\\' :: 'u' :: a :: b :: c :: d :: rest => do
      let x ← scalarValue? [a, b, c, d]
      basicText? (x :: acc) rest
  | '\\' :: 'U' :: a :: b :: c :: d :: e :: f :: g :: h :: rest => do
      let x ← scalarValue? [a, b, c, d, e, f, g, h]
      basicText? (x :: acc) rest
  | '\\' :: c :: rest => do
      let x ← escape? c
      basicText? (x :: acc) rest
  | c :: rest =>
      if isTextChar c && c != '\\' then
        basicText? (c :: acc) rest
      else
        none

/- The text up to a single quote, behind what was read. -/
def literalText?
    (acc : List Char) :
    List Char → Option (String × List Char)
  | [] => none
  | '\'' :: rest => some (String.ofList acc.reverse, rest)
  | c :: rest =>
      if isTextChar c then literalText? (c :: acc) rest
      else none

/- Leave out blanks and line ends. -/
def skipLines : List Char → List Char
  | ' ' :: rest => skipLines rest
  | '\t' :: rest => skipLines rest
  | '\n' :: rest => skipLines rest
  | '\r' :: '\n' :: rest => skipLines rest
  | rest => rest

/- Whether only blanks stand before the end of the line. -/
def endsLine : List Char → Bool
  | ' ' :: rest => endsLine rest
  | '\t' :: rest => endsLine rest
  | '\n' :: _ => true
  | '\r' :: '\n' :: _ => true
  | _ => false

/-
  The text up to three quotes, over several lines; at most two
  more quotes in front of them belong to it.  A backslash at
  the end of a line leaves out all up to the next character.
-/
def blockText?
    (quote : Char)
    (escapes : Bool) :
    Nat → List Char → List Char → Option (String × List Char)
  | 0, _, _ => none
  | _, _, [] => none
  | n + 1, acc, c :: rest =>
      if c = quote then
        let more := rest.takeWhile (· = quote)
        let after := rest.dropWhile (· = quote)
        if more.length < 2 then
          blockText? quote escapes n (more ++ c :: acc) after
        else if more.length ≤ 4 then
          some (String.ofList
            ((more.drop 2 ++ acc).reverse), after)
        else
          none
      else if c = '\\' && escapes then
        if endsLine rest then
          blockText? quote escapes n acc (skipLines rest)
        else
          match rest with
          | 'u' :: a :: b :: c :: d :: rest => do
              let x ← scalarValue? [a, b, c, d]
              blockText? quote escapes n (x :: acc) rest
          | 'U' :: a :: b :: c :: d :: e :: f :: g :: h :: rest => do
              let x ← scalarValue? [a, b, c, d, e, f, g, h]
              blockText? quote escapes n (x :: acc) rest
          | e :: rest => do
              let x ← escape? e
              blockText? quote escapes n (x :: acc) rest
          | [] => none
      else if c = '\r' then
        match rest with
        | '\n' :: rest =>
            blockText? quote escapes n ('\n' :: acc) rest
        | _ => none
      else if c = '\n' || isTextChar c then
        blockText? quote escapes n (c :: acc) rest
      else
        none

/- A line end right behind the opening quotes does not count. -/
def skipFirstLine : List Char → List Char
  | '\n' :: rest => rest
  | '\r' :: '\n' :: rest => rest
  | rest => rest

/- A text of any form. -/
def quotedText? : List Char → Option (String × List Char)
  | '"' :: '"' :: '"' :: rest =>
      blockText? '"' true (rest.length + 1) [] (skipFirstLine rest)
  | '\'' :: '\'' :: '\'' :: rest =>
      blockText? '\'' false (rest.length + 1) []
        (skipFirstLine rest)
  | '"' :: rest => basicText? [] rest
  | '\'' :: rest => literalText? [] rest
  | _ => none

------------------------------------------------------------
-- Numbers
------------------------------------------------------------

/- Digits with single underscores between them. -/
def digits?
    (isDigit : Char → Bool) : List Char → Option (List Char)
  | [] => none
  | [c] => if isDigit c then some [c] else none
  | c :: '_' :: rest =>
      if isDigit c then (digits? isDigit rest).map (c :: ·)
      else none
  | c :: rest =>
      if isDigit c then (digits? isDigit rest).map (c :: ·)
      else none

/- The value of decimal digits. -/
def digitsNumber
    (ds : List Char) : Nat :=
  ds.foldl (fun n c => 10 * n + (c.toNat - 48)) 0

/- Decimal digits without a zero in front. -/
def decimal?
    (cs : List Char) : Option (List Char) := do
  let ds ← digits? Char.isDigit cs
  match ds with
  | '0' :: _ :: _ => none
  | _ => some ds

/- A sign, if there is one, and the rest. -/
def signed : List Char → Int × List Char
  | '-' :: rest => (-1, rest)
  | '+' :: rest => (1, rest)
  | cs => (1, cs)

/- A number of a base that is not ten. -/
def based?
    (base : Nat)
    (cs : List Char) : Option Int := do
  let isDigit := fun c => (hexDigit? c).any (· < base)
  let ds ← digits? isDigit cs
  let values ← ds.mapM hexDigit?
  return Int.ofNat (values.foldl (fun n d => base * n + d) 0)

/- An integer that fits into sixty-four bits. -/
def integer?
    (cs : List Char) : Option Int64 := do
  let n ←
    match cs with
    | '0' :: 'x' :: rest => based? 16 rest
    | '0' :: 'o' :: rest => based? 8 rest
    | '0' :: 'b' :: rest => based? 2 rest
    | _ =>
        let (sign, rest) := signed cs
        (decimal? rest).map (sign * digitsNumber ·)
  if Int64.minValue.toInt ≤ n ∧ n ≤ Int64.maxValue.toInt then
    some (Int64.ofInt n)
  else
    none

/- Characters before a mark, and those behind it if it is there. -/
def cutAt
    (isMark : Char → Bool)
    (cs : List Char) : List Char × Option (List Char) :=
  match cs.dropWhile (!isMark ·) with
  | [] => (cs, none)
  | _ :: rest => (cs.takeWhile (!isMark ·), some rest)

/- The number nearest to one with a point or an exponent. -/
def real?
    (cs : List Char) : Option Binary64 := do
  let (sign, body) := signed cs
  let (mantissa, exponent) :=
    cutAt (fun c => c == 'e' || c == 'E') body
  let (whole, fraction) := cutAt (· == '.') mantissa
  if fraction.isNone && exponent.isNone then
    none
  let whole ← decimal? whole
  let (scaleSign, scale) := signed (exponent.getD ['0'])
  let scale ← digits? Char.isDigit scale
  let fraction ←
    match fraction with
    | none => some []
    | some cs => digits? Char.isDigit cs
  return .ofDecimal (sign < 0) (digitsNumber (whole ++ fraction))
    (scaleSign * digitsNumber scale - fraction.length)

/-
  A number with a point or an exponent that is not too large,
  or one that is infinite or not a number by its name.  Below,
  there is no bound: the nearest may be negative infinity.
-/
def isFloat
    (cs : List Char) : Bool :=
  let body := (signed cs).2
  body == "inf".toList || body == "nan".toList ||
    (real? cs).any (· ≠ .infinity)

------------------------------------------------------------
-- Dates
------------------------------------------------------------

/- Two digits as a number. -/
def twoDigits?
    (a b : Char) : Option Nat :=
  if a.isDigit && b.isDigit then
    some (10 * (a.toNat - 48) + (b.toNat - 48))
  else
    none

/- Days of a month; February may have one more. -/
def daysIn
    (year month : Nat) : Nat :=
  if month = 2 then
    if year % 4 = 0 ∧ (year % 100 ≠ 0 ∨ year % 400 = 0) then 29
    else 28
  else if month ∈ [4, 6, 9, 11] then 30
  else 31

/- Year, month and day. -/
def isDate : List Char → Bool
  | [y1, y2, y3, y4, '-', m1, m2, '-', d1, d2] =>
      match twoDigits? y1 y2, twoDigits? y3 y4,
          twoDigits? m1 m2, twoDigits? d1 d2 with
      | some y, some z, some m, some d =>
          1 ≤ m && m ≤ 12 && 1 ≤ d && d ≤ daysIn (100 * y + z) m
      | _, _, _, _ => false
  | _ => false

/- Hours and minutes. -/
def isClock
    (a b c d : Char) : Bool :=
  match twoDigits? a b, twoDigits? c d with
  | some h, some m => h ≤ 23 && m ≤ 59
  | _, _ => false

/- Hours, minutes and seconds, which may have a fraction. -/
def isTime : List Char → Bool
  | a :: b :: ':' :: c :: d :: ':' :: e :: f :: rest =>
      isClock a b c d && (twoDigits? e f).any (· ≤ 60) &&
        match rest with
        | [] => true
        | '.' :: ds => !ds.isEmpty && ds.all Char.isDigit
        | _ => false
  | _ => false

/- A time with or without its distance from universal time. -/
def isZonedTime
    (cs : List Char) : Bool :=
  let (time, zone) := cutAt (fun c => c ∈ ['Z', 'z', '+', '-']) cs
  isTime time &&
    match zone with
    | none => true
    | some [] => cs.getLast? != some '+' && cs.getLast? != some '-'
    | some [a, b, ':', c, d] =>
        cs.all (fun c => c != 'Z' && c != 'z') && isClock a b c d
    | some _ => false

/- A date, a time or both. -/
def isDateTime
    (cs : List Char) : Bool :=
  isTime cs || isDate cs ||
    (isDate (cs.take 10) &&
      (cs[10]?).any (fun c => c == 'T' || c == 't' || c == ' ') &&
      isZonedTime (cs.drop 11))

------------------------------------------------------------
-- Scalars
------------------------------------------------------------

/- The value that is written without quotes. -/
def scalar?
    (cs : List Char) : Option Value :=
  if cs = "true".toList then some (.boolean true)
  else if cs = "false".toList then some (.boolean false)
  else
    match integer? cs with
    | some n => some (.integer n)
    | none =>
        if isFloat cs || isDateTime cs then some .other
        else none

end Toml

end Stratagem

import Stratagem.Text.Hidden

/-
  Text in double quotes, with everything that cannot be seen
  spelled out.

  Key definitions include:
    * `Text.hex`
    * `Text.padLeft`
    * `Text.quoteChar`
    * `Text.quoted`
-/

namespace Stratagem

namespace Text

------------------------------------------------------------
-- Hexadecimal Digits
------------------------------------------------------------

/- Lower-case hexadecimal digits without leading zeros. -/
def hex
    (n : Nat) : List Char :=
  Nat.toDigits 16 n

/- Fill up to a width on the left. -/
def padLeft
    (width : Nat)
    (fill : Char)
    (cs : List Char) : List Char :=
  List.replicate (width - cs.length) fill ++ cs

/- Lower-case hexadecimal digits, at least `width` of them. -/
def paddedHex
    (width : Nat)
    (n : Nat) : String :=
  String.ofList (padLeft width '0' (hex n))

------------------------------------------------------------
-- Quotation
------------------------------------------------------------

/- One character inside quotes. -/
def quoteChar
    (c : Char) : List Char :=
  if c = '\x00' then
    ['\\', '0']
  else if c = '\t' then
    ['\\', 't']
  else if c = '\r' then
    ['\\', 'r']
  else if c = '\n' then
    ['\\', 'n']
  else if c = '"' then
    ['\\', '"']
  else if c = '\\' then
    ['\\', '\\']
  else if isHidden c then
    ['\\', 'u', '\x7b'] ++ hex c.toNat ++ ['\x7d']
  else
    [c]

/- A text in quotes. -/
def quoted
    (s : String) : String :=
  String.ofList ('"' :: s.toList.flatMap quoteChar ++ ['"'])

end Text

end Stratagem

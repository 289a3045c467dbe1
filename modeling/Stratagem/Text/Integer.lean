/-
  Integers as text.

  Key definitions include:
    * `Text.parseInteger?`
-/

namespace Stratagem

namespace Text

/- The value of digits, of which there is at least one. -/
def digitsValue?
    (cs : List Char) : Option Nat :=
  if cs.isEmpty || !cs.all Char.isDigit then none
  else
    some (cs.foldl (fun n c => 10 * n + (c.toNat - 48)) 0)

/- An integer of sixty-four bits, with or without a sign. -/
def parseInteger?
    (text : String) : Option Int64 := do
  let n : Int ←
    match text.toList with
    | '-' :: cs => (digitsValue? cs).map fun n => -(n : Int)
    | '+' :: cs => (digitsValue? cs).map Int.ofNat
    | cs => (digitsValue? cs).map Int.ofNat
  if Int64.minValue.toInt ≤ n ∧ n ≤ Int64.maxValue.toInt then
    some (Int64.ofInt n)
  else
    none

end Text

end Stratagem

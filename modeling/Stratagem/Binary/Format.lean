/-
  Binary floating-point formats in exact arithmetic.

  A format fixes how many bits hold the fraction and how many
  hold the exponent.  `Format.decode` reads a bit pattern as
  a sign and a number `m * 2 ^ q`; `Format.nearest` goes the
  other way, from a quotient to the closest bit pattern, ties
  to the even one.

  Key definitions include:
    * `Binary.Format`
    * `Binary.Value`
    * `Binary.Format.decode`
    * `Binary.Format.nearest`
    * `Binary.Format.ofDecimal`
-/

namespace Stratagem

namespace Binary

------------------------------------------------------------
-- Formats and Values
------------------------------------------------------------

/- Widths of the stored fraction and of the exponent. -/
structure Format where
  fraction : Nat
  exponent : Nat

namespace Format

/- Thirty-two bits. -/
def single : Format :=
  ⟨23, 8⟩

/- Sixty-four bits. -/
def double : Format :=
  ⟨52, 11⟩

/- The exponent field of one. -/
def bias
    (f : Format) : Nat :=
  Nat.pow 2 (f.exponent - 1) - 1

/- The power of two of the last bit of the smallest numbers. -/
def leastScale
    (f : Format) : Int :=
  1 - (f.bias : Int) - (f.fraction : Int)

/- The bit pattern of positive infinity. -/
def infinityBits
    (f : Format) : Nat :=
  (Nat.pow 2 f.exponent - 1) * Nat.pow 2 f.fraction

/- The bit pattern of the sign. -/
def signBit
    (f : Format) : Nat :=
  Nat.pow 2 (f.fraction + f.exponent)

end Format

/- What a bit pattern stands for. -/
inductive Value where
  | nan
  | infinite (negative : Bool)
  | finite (negative : Bool) (mantissa : Nat) (scale : Int)

namespace Value

/- Numbers proper. -/
def isFinite : Value → Bool
  | .finite _ _ _ => true
  | _ => false

end Value

------------------------------------------------------------
-- Decoding
------------------------------------------------------------

namespace Format

/- Read a bit pattern. -/
def decode
    (f : Format)
    (bits : Nat) : Value :=
  let fraction := bits % Nat.pow 2 f.fraction
  let exponent :=
    bits / Nat.pow 2 f.fraction % Nat.pow 2 f.exponent
  let negative := bits / f.signBit % 2 == 1
  if exponent = Nat.pow 2 f.exponent - 1 then
    if fraction = 0 then .infinite negative else .nan
  else if exponent = 0 then
    .finite negative fraction f.leastScale
  else
    .finite negative (Nat.pow 2 f.fraction + fraction)
      (f.leastScale + (exponent - 1 : Nat))

------------------------------------------------------------
-- Rounding
------------------------------------------------------------

/- The integer nearest to a quotient, a half to the even one. -/
def roundQuotient
    (num den : Nat) : Nat :=
  let whole := num / den
  let twice := 2 * (num % den)
  if twice < den then
    whole
  else if den < twice then
    whole + 1
  else
    whole + whole % 2

/- The quotient's power of two, rounded down. -/
def quotientLog2
    (num den : Nat) : Int :=
  let estimate : Int := (num.log2 : Int) - (den.log2 : Int)
  if num * Nat.pow 2 (-estimate).toNat <
      den * Nat.pow 2 estimate.toNat then
    estimate - 1
  else
    estimate

/-
  The bit pattern of the number nearest to a quotient of
  positive numbers; infinity when it is too large.

  A mantissa that rounds up to the next power of two carries
  into the exponent field by itself, since the two fields are
  adjacent.
-/
def nearest
    (f : Format)
    (num den : Nat) : Nat :=
  if num = 0 then
    0
  else
    let scale :=
      max (quotientLog2 num den - (f.fraction : Int))
        f.leastScale
    let mantissa :=
      roundQuotient (num * Nat.pow 2 (-scale).toNat)
        (den * Nat.pow 2 scale.toNat)
    min f.infinityBits
      ((scale - f.leastScale).toNat * Nat.pow 2 f.fraction +
        mantissa)

/- The number of decimal digits, zero for zero. -/
def digitCount
    (n : Nat) : Nat :=
  if n = 0 then 0 else (Nat.toDigits 10 n).length

/-
  The bit pattern nearest to `mantissa * 10 ^ exponent`.

  A decimal magnitude past `2 ^ f.exponent` is far outside
  the range on either side, and is settled without computing
  the power.
-/
def ofDecimal
    (f : Format)
    (mantissa : Nat)
    (exponent : Int) : Nat :=
  let magnitude : Int := digitCount mantissa + exponent
  if mantissa = 0 then
    0
  else if (Nat.pow 2 f.exponent : Int) < magnitude then
    f.infinityBits
  else if magnitude < -(Nat.pow 2 f.exponent : Int) then
    0
  else
    f.nearest (mantissa * Nat.pow 10 exponent.toNat)
      (Nat.pow 10 (-exponent).toNat)

end Format

end Binary

end Stratagem

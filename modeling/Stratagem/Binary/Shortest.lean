import Stratagem.Binary.Format

/-
  The decimal with the fewest digits that reads back as a
  given binary number.

  The reals that round to `m * 2 ^ q` form an interval, whose
  ends belong to it exactly when `m` is even.  Decimal grids
  are tried from coarse to fine: on each, the two neighbours
  of the number are the only candidates, and the first grid
  with a candidate inside the interval wins.  Of two
  candidates the nearer is taken, and a tie goes up.

  Key definitions include:
    * `Binary.Interval`
    * `Binary.Interval.candidate?`
    * `Binary.shortest`
    * `Binary.positional`
-/

namespace Stratagem

namespace Binary

------------------------------------------------------------
-- Rounding Intervals
------------------------------------------------------------

/-
  The reals that round to one number, in units of
  `2 ^ scale`.
-/
structure Interval where
  low : Nat
  value : Nat
  high : Nat
  scale : Int
  closed : Bool

namespace Interval

/-
  The interval of `m * 2 ^ q`.  Below a power of two the
  neighbour is only half as far away.
-/
def ofValue
    (f : Format)
    (m : Nat)
    (q : Int) : Interval :=
  let isPower := m == Nat.pow 2 f.fraction
  let below := if isPower ∧ f.leastScale < q then 1 else 2
  { low := 4 * m - below
    value := 4 * m
    high := 4 * m + 2
    scale := q - 2
    closed := m % 2 == 0 }

/- Whether `n / den` lies in the interval scaled by `num`. -/
def holds
    (i : Interval)
    (num den n : Nat) : Bool :=
  if i.closed then
    i.low * num ≤ n * den && n * den ≤ i.high * num
  else
    i.low * num < n * den && n * den < i.high * num

/-
  The multiple of `10 ^ p` in the interval that is nearest to
  the number, as its factor.
-/
def candidate?
    (i : Interval)
    (p : Int) : Option Nat :=
  let num := Nat.pow 2 i.scale.toNat * Nat.pow 10 (-p).toNat
  let den := Nat.pow 2 (-i.scale).toNat * Nat.pow 10 p.toNat
  let below := i.value * num / den
  let rest := i.value * num % den
  match i.holds num den below, i.holds num den (below + 1) with
  | true, true =>
      some (if den ≤ 2 * rest then below + 1 else below)
  | true, false => some below
  | false, true => some (below + 1)
  | false, false => none

end Interval

------------------------------------------------------------
-- Search over Decimal Grids
------------------------------------------------------------

/- Try the grids `10 ^ p`, `10 ^ (p - 1)`, and so on. -/
def search
    (i : Interval) :
    Nat → Int → Nat × Int
  | 0, p => (0, p)
  | n + 1, p =>
      match i.candidate? p with
      | some digits => (digits, p)
      | none => search i n (p - 1)

/-
  The shortest decimal of `m * 2 ^ q`, as digits and a power
  of ten.  The first grid is coarser than the number, and a
  grid finer than the interval holds a candidate.
-/
def shortest
    (f : Format)
    (m : Nat)
    (q : Int) : Nat × Int :=
  let magnitude : Int := m.log2 + 1 + q
  search (Interval.ofValue f m q) (f.fraction + 8)
    (magnitude * 3 / 10 + 3)

------------------------------------------------------------
-- Positional Notation
------------------------------------------------------------

/- `digits * 10 ^ p` without an exponent. -/
def positional
    (digits : Nat)
    (p : Int) : List Char :=
  let ds := Nat.toDigits 10 digits
  if 0 ≤ p then
    ds ++ List.replicate p.toNat '0'
  else
    let places := (-p).toNat
    let padded :=
      List.replicate (places + 1 - ds.length) '0' ++ ds
    padded.take (padded.length - places) ++
      '.' :: padded.drop (padded.length - places)

/- A number without an exponent, or the name of what it is. -/
def render
    (f : Format)
    (bits : Nat) : List Char :=
  match f.decode bits with
  | .nan => "NaN".toList
  | .infinite negative =>
      (if negative then ['-'] else []) ++ "inf".toList
  | .finite negative m q =>
      let sign := if negative then ['-'] else []
      if m = 0 then
        sign ++ ['0']
      else
        let (digits, p) := shortest f m q
        sign ++ positional digits p

end Binary

end Stratagem

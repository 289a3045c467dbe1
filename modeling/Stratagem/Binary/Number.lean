import Stratagem.Binary.Shortest

/-
  Numbers held as bit patterns of thirty-two and sixty-four
  bits.

  Key definitions include:
    * `Binary32`
    * `Binary64`
    * `Binary32.ofInt`
    * `Binary64.ofInt`
    * `Binary64.ofDecimal`
    * `Binary64.same`
-/

namespace Stratagem

/- The nearest bit pattern of an integer. -/
def Binary.Format.ofInt
    (f : Format)
    (n : Int) : Nat :=
  (if n < 0 then f.signBit else 0) + f.nearest n.natAbs 1

------------------------------------------------------------
-- Single Precision
------------------------------------------------------------

/- A number of thirty-two bits. -/
structure Binary32 where
  bits : UInt32
deriving DecidableEq

namespace Binary32

/- The number nearest to an integer. -/
def ofInt
    (n : Int) : Binary32 :=
  ⟨UInt32.ofNat (Binary.Format.single.ofInt n)⟩

/- The number as text, without an exponent. -/
def display
    (x : Binary32) : String :=
  String.ofList (Binary.render .single x.bits.toNat)

end Binary32

------------------------------------------------------------
-- Double Precision
------------------------------------------------------------

/- A number of sixty-four bits. -/
structure Binary64 where
  bits : UInt64
deriving DecidableEq

namespace Binary64

/- The number nearest to an integer. -/
def ofInt
    (n : Int) : Binary64 :=
  ⟨UInt64.ofNat (Binary.Format.double.ofInt n)⟩

/- The number nearest to a decimal. -/
def ofDecimal
    (negative : Bool)
    (mantissa : Nat)
    (exponent : Int) : Binary64 :=
  let f := Binary.Format.double
  ⟨UInt64.ofNat
    ((if negative then f.signBit else 0) +
      f.ofDecimal mantissa exponent)⟩

/- Positive infinity. -/
def infinity : Binary64 :=
  ⟨UInt64.ofNat Binary.Format.double.infinityBits⟩

/- Numbers proper, as against infinities and not-a-number. -/
def isFinite
    (x : Binary64) : Bool :=
  (Binary.Format.double.decode x.bits.toNat).isFinite

/-
  Numerical equality: the two zeros are the same, and
  not-a-number is the same as nothing.
-/
def same
    (x y : Binary64) : Bool :=
  match Binary.Format.double.decode x.bits.toNat,
      Binary.Format.double.decode y.bits.toNat with
  | .nan, _ => false
  | _, .nan => false
  | .finite _ 0 _, .finite _ 0 _ => true
  | _, _ => x.bits == y.bits

/- The number as text, without an exponent. -/
def render
    (x : Binary64) : List Char :=
  Binary.render .double x.bits.toNat

/- The number as text, without an exponent. -/
def display
    (x : Binary64) : String :=
  String.ofList x.render

end Binary64

end Stratagem

import Mathlib.Algebra.Order.Field.Power
import Mathlib.Algebra.Order.Field.Rat
import Mathlib.Tactic.FieldSimp
import Mathlib.Tactic.Linarith
import Mathlib.Tactic.NormNum
import Mathlib.Tactic.Positivity
import Mathlib.Tactic.Ring
import Stratagem.Binary.Number

/-
  Rounding to a binary format.

  The rationals that round to one number are those of an
  interval around it.  What is proven here is one direction,
  the one that printing depends on: whatever lies in the
  interval of a number rounds to the number's own bits, from
  a quotient or from a decimal.

  Key definitions include:
    * `Binary.Format.Fits`
    * `Binary.Format.code`
    * `Binary.Rounds`
    * `Binary.Format.Balanced`

  Main declarations:
    * `Binary.Format.of_decode`
    * `Binary.nearest_eq_code`
    * `Binary.ofDecimal_eq_code`
-/

namespace Stratagem

namespace Binary

------------------------------------------------------------
-- Powers
------------------------------------------------------------

/- A power is computed as a quotient of two natural ones. -/
theorem zpow_eq_div
    {b : ℚ}
    (hBase : b ≠ 0)
    (q : Int) :
    b ^ q = b ^ q.toNat / b ^ (-q).toNat := by
  rw [← zpow_natCast, ← zpow_natCast, ← zpow_sub₀ hBase]
  congr 1
  omega

/- Below one a larger base has a smaller power. -/
theorem zpow_le_zpow_of_nonpos
    {a b : ℚ}
    {q : Int}
    (hPos : 0 < a)
    (hBase : a ≤ b)
    (hScale : q ≤ 0) :
    b ^ q ≤ a ^ q := by
  rcases Int.exists_eq_neg_ofNat hScale with ⟨n, rfl⟩
  rw [zpow_neg, zpow_neg, zpow_natCast, zpow_natCast]
  apply inv_anti₀ (pow_pos hPos n)
  exact pow_le_pow_left₀ hPos.le hBase n

/- A quotient in units of a power of two. -/
theorem scaled_quotient
    (num den : Nat)
    (s : Int) :
    ((num * Nat.pow 2 (-s).toNat : Nat) : ℚ) /
        ((den * Nat.pow 2 s.toNat : Nat) : ℚ) =
      (num : ℚ) / den / 2 ^ s := by
  rw [zpow_eq_div two_ne_zero, Nat.pow_eq, Nat.pow_eq]
  push_cast
  rw [div_div_eq_mul_div, div_mul_eq_mul_div, div_div]

------------------------------------------------------------
-- Powers of Two below a Quotient
------------------------------------------------------------

theorem scaled_lt_iff
    {num den : Nat}
    (hDen : 0 < den)
    (s : Int) :
    num * Nat.pow 2 (-s).toNat < den * Nat.pow 2 s.toNat ↔
      (num : ℚ) / den < 2 ^ s := by
  have hScaled : 0 < den * Nat.pow 2 s.toNat :=
    Nat.mul_pos hDen (Nat.pow_pos two_pos)
  have hUnit : (0 : ℚ) < 2 ^ s := zpow_pos two_pos _
  rw [← div_lt_one hUnit, ← scaled_quotient,
    div_lt_one (Nat.cast_pos.mpr hScaled), Nat.cast_lt]

/- A positive number between two powers of two. -/
theorem log2_bounds
    {n : Nat}
    (hPos : 0 < n) :
    (2 : ℚ) ^ (n.log2 : Int) ≤ n ∧
      (n : ℚ) < 2 ^ ((n.log2 : Int) + 1) := by
  have hLow := Nat.log2_self_le hPos.ne'
  have hHigh := Nat.lt_log2_self (n := n)
  constructor
  · rw [zpow_natCast]
    exact_mod_cast hLow
  · rw [← Nat.cast_succ, zpow_natCast]
    exact_mod_cast hHigh

theorem quotientLog2_bounds
    {num den : Nat}
    (hNum : 0 < num)
    (hDen : 0 < den) :
    (2 : ℚ) ^ (Format.quotientLog2 num den) ≤ num / den ∧
      (num : ℚ) / den < 2 ^ (Format.quotientLog2 num den + 1) := by
  have hDen' : (0 : ℚ) < den := Nat.cast_pos.mpr hDen
  rcases log2_bounds hNum with ⟨hNumLow, hNumHigh⟩
  rcases log2_bounds hDen with ⟨hDenLow, hDenHigh⟩
  have hLow : (2 : ℚ) ^ ((num.log2 : Int) - den.log2 - 1) ≤
      num / den := by
    rw [le_div_iff₀ hDen']
    calc (2 : ℚ) ^ ((num.log2 : Int) - den.log2 - 1) * den
        ≤ 2 ^ ((num.log2 : Int) - den.log2 - 1) *
            2 ^ ((den.log2 : Int) + 1) := by gcongr
      _ = 2 ^ (num.log2 : Int) := by
          rw [← zpow_add₀ two_ne_zero]
          congr 1
          omega
      _ ≤ num := hNumLow
  have hHigh : (num : ℚ) / den <
      2 ^ ((num.log2 : Int) - den.log2 + 1) := by
    rw [div_lt_iff₀ hDen']
    calc (num : ℚ)
        < 2 ^ ((num.log2 : Int) + 1) := hNumHigh
      _ = 2 ^ ((num.log2 : Int) - den.log2 + 1) *
            2 ^ (den.log2 : Int) := by
          rw [← zpow_add₀ two_ne_zero]
          congr 1
          omega
      _ ≤ 2 ^ ((num.log2 : Int) - den.log2 + 1) * den := by gcongr
  unfold Format.quotientLog2
  dsimp only
  by_cases hLess : num * Nat.pow 2
      (-((num.log2 : Int) - den.log2)).toNat <
        den * Nat.pow 2 ((num.log2 : Int) - den.log2).toNat
  · rw [if_pos hLess]
    refine ⟨hLow, ?_⟩
    rw [sub_add_cancel]
    exact (scaled_lt_iff hDen _).mp hLess
  · rw [if_neg hLess]
    refine ⟨?_, hHigh⟩
    rw [scaled_lt_iff hDen, not_lt] at hLess
    exact hLess

------------------------------------------------------------
-- Nearest Integers
------------------------------------------------------------

/-
  A quotient is rounded to the integer that is nearest.
  Rounded down, it is that integer or the one below it.
-/
theorem roundQuotient_eq
    {a d n : Nat}
    (hDen : 0 < d)
    (hLow : (n : ℚ) - 1 / 2 ≤ a / d)
    (hHigh : (a : ℚ) / d ≤ n + 1 / 2)
    (hOdd : n % 2 = 1 →
      (n : ℚ) - 1 / 2 < a / d ∧ (a : ℚ) / d < n + 1 / 2) :
    Format.roundQuotient a d = n := by
  have hDen' : (0 : ℚ) < d := Nat.cast_pos.mpr hDen
  have hLow' : 2 * (n * d) ≤ 2 * a + d := by
    rw [le_div_iff₀ hDen'] at hLow
    have hScaled : (2 : ℚ) * (n * d) ≤ 2 * a + d := by linarith
    exact_mod_cast hScaled
  have hHigh' : 2 * a ≤ 2 * (n * d) + d := by
    rw [div_le_iff₀ hDen'] at hHigh
    have hScaled : (2 : ℚ) * a ≤ 2 * (n * d) + d := by linarith
    exact_mod_cast hScaled
  have hOdd' : n % 2 = 1 →
      2 * (n * d) < 2 * a + d ∧ 2 * a < 2 * (n * d) + d := by
    intro hIs
    rcases hOdd hIs with ⟨hLess, hMore⟩
    rw [lt_div_iff₀ hDen'] at hLess
    rw [div_lt_iff₀ hDen'] at hMore
    constructor
    · have hScaled : (2 : ℚ) * (n * d) < 2 * a + d := by linarith
      exact_mod_cast hScaled
    · have hScaled : (2 : ℚ) * a < 2 * (n * d) + d := by linarith
      exact_mod_cast hScaled
  clear hLow hHigh hOdd
  have hSplit := Nat.div_add_mod a d
  have hRest := Nat.mod_lt a hDen
  rw [Nat.mul_comm] at hSplit
  have hWhole : n = a / d ∨ n = a / d + 1 := by
    rcases Nat.lt_or_ge n (a / d) with hLess | hMore
    · have hStep := Nat.mul_le_mul_right d (Nat.succ_le_of_lt hLess)
      rw [Nat.succ_mul] at hStep
      omega
    · rcases Nat.lt_or_ge (a / d + 1) n with hFar | hNear
      · have hStep := Nat.mul_le_mul_right d (Nat.succ_le_of_lt hFar)
        rw [Nat.succ_mul, Nat.succ_mul] at hStep
        omega
      · omega
  unfold Format.roundQuotient
  dsimp only
  rcases hWhole with hWhole | hWhole
  · rw [← hWhole] at hSplit ⊢
    split
    · rfl
    · split <;> omega
  · have hNext : n * d = a / d * d + d := by
      rw [hWhole, Nat.succ_mul]
    split
    · omega
    · split <;> omega

------------------------------------------------------------
-- Numbers of a Format
------------------------------------------------------------

namespace Format

/- The bits of `m * 2 ^ q`, the sign apart. -/
def code
    (f : Format)
    (m : Nat)
    (q : Int) : Nat :=
  (q - f.leastScale).toNat * 2 ^ f.fraction + m

/-
  Mantissas and scales of the finite numbers.  Only at the
  least scale may the leading bit be missing.
-/
structure Fits
    (f : Format)
    (m : Nat)
    (q : Int) : Prop where
  small : m < 2 ^ (f.fraction + 1)
  least : f.leastScale ≤ q
  leading : 2 ^ f.fraction ≤ m ∨ q = f.leastScale
  finite : f.code m q < f.infinityBits

/- Numbers without a leading bit. -/
theorem fits_least
    {f : Format}
    {m : Nat}
    (hSmall : m < 2 ^ f.fraction)
    (hFinite : 1 ≤ 2 ^ f.exponent - 1) :
    f.Fits m f.leastScale ∧ f.code m f.leastScale = m := by
  have hCode : f.code m f.leastScale = m := by
    simp [code]
  refine ⟨⟨?_, le_refl _, Or.inr rfl, ?_⟩, hCode⟩
  · rw [Nat.pow_succ]
    omega
  · rw [hCode, infinityBits]
    calc m
        < 1 * 2 ^ f.fraction := by omega
      _ ≤ (2 ^ f.exponent - 1) * 2 ^ f.fraction :=
          Nat.mul_le_mul_right _ hFinite

/- Numbers with a leading bit, which is not stored. -/
theorem fits_leading
    {f : Format}
    {fraction exponent : Nat}
    (hSmall : fraction < 2 ^ f.fraction)
    (hPos : exponent ≠ 0)
    (hFinite : exponent + 1 ≤ 2 ^ f.exponent - 1) :
    f.Fits (2 ^ f.fraction + fraction)
        (f.leastScale + (exponent - 1 : Nat)) ∧
      f.code (2 ^ f.fraction + fraction)
          (f.leastScale + (exponent - 1 : Nat)) =
        exponent * 2 ^ f.fraction + fraction := by
  have hCode : f.code (2 ^ f.fraction + fraction)
      (f.leastScale + (exponent - 1 : Nat)) =
        exponent * 2 ^ f.fraction + fraction := by
    rw [code, add_sub_cancel_left, Int.toNat_natCast,
      ← Nat.add_assoc, ← Nat.succ_mul, Nat.succ_eq_add_one,
      Nat.sub_add_cancel (Nat.pos_of_ne_zero hPos)]
  refine ⟨⟨?_, ?_, Or.inl (Nat.le_add_right _ _), ?_⟩, hCode⟩
  · rw [Nat.pow_succ]
    omega
  · omega
  · rw [hCode, infinityBits]
    calc exponent * 2 ^ f.fraction + fraction
        < (exponent + 1) * 2 ^ f.fraction := by
          rw [Nat.succ_mul]
          omega
      _ ≤ (2 ^ f.exponent - 1) * 2 ^ f.fraction :=
          Nat.mul_le_mul_right _ hFinite

/- Bits are a sign, an exponent and a fraction side by side. -/
theorem bits_eq
    {f : Format}
    {bits : Nat}
    (hBits : bits < 2 * f.signBit) :
    bits = (if bits / f.signBit % 2 == 1 then f.signBit else 0) +
      (bits / 2 ^ f.fraction % 2 ^ f.exponent * 2 ^ f.fraction +
        bits % 2 ^ f.fraction) := by
  have hSign : f.signBit = 2 ^ f.fraction * 2 ^ f.exponent :=
    Nat.pow_add 2 f.fraction f.exponent
  have hTop : bits / f.signBit < 2 :=
    Nat.div_lt_of_lt_mul (by rwa [Nat.mul_comm])
  have hNegative : f.signBit * (bits / f.signBit) =
      if bits / f.signBit % 2 == 1 then f.signBit else 0 := by
    rcases Nat.le_one_iff_eq_zero_or_eq_one.mp
      (Nat.lt_succ_iff.mp hTop) with hNone | hOne
    · simp [hNone]
    · simp [hOne]
  have hLow := Nat.div_add_mod bits (2 ^ f.fraction)
  have hHigh := Nat.div_add_mod (bits / 2 ^ f.fraction)
    (2 ^ f.exponent)
  rw [← hNegative, hSign, ← Nat.div_div_eq_div_mul, ← Nat.add_assoc,
    Nat.mul_assoc, Nat.mul_comm _ (2 ^ f.fraction), ← Nat.mul_add,
    hHigh, hLow]

/- A finite number has a sign, and its bits are its code. -/
theorem of_decode
    {f : Format}
    {bits m : Nat}
    {q : Int}
    {negative : Bool}
    (hBits : bits < 2 * f.signBit)
    (hDecode : f.decode bits = .finite negative m q) :
    f.Fits m q ∧
      bits = (if negative then f.signBit else 0) + f.code m q := by
  have hWhole := bits_eq hBits
  have hFraction : bits % 2 ^ f.fraction < 2 ^ f.fraction :=
    Nat.mod_lt _ (Nat.pow_pos two_pos)
  have hExponent : bits / 2 ^ f.fraction % 2 ^ f.exponent <
      2 ^ f.exponent :=
    Nat.mod_lt _ (Nat.pow_pos two_pos)
  unfold decode at hDecode
  dsimp only [Nat.pow_eq] at hDecode
  by_cases hMax : bits / 2 ^ f.fraction % 2 ^ f.exponent =
      2 ^ f.exponent - 1
  · rw [if_pos hMax] at hDecode
    split at hDecode <;> cases hDecode
  · rw [if_neg hMax] at hDecode
    by_cases hZero : bits / 2 ^ f.fraction % 2 ^ f.exponent = 0
    · rw [if_pos hZero] at hDecode
      rw [hZero, Nat.zero_mul, Nat.zero_add] at hWhole
      injection hDecode with hIs hMantissa hScale
      subst hIs hMantissa hScale
      rcases fits_least hFraction (by omega) with ⟨hFits, hCode⟩
      rw [hCode]
      exact ⟨hFits, hWhole⟩
    · rw [if_neg hZero] at hDecode
      injection hDecode with hIs hMantissa hScale
      subst hIs hMantissa hScale
      rcases fits_leading hFraction hZero (by omega) with
        ⟨hFits, hCode⟩
      rw [hCode]
      exact ⟨hFits, hWhole⟩

end Format

/- What rounds to `m * 2 ^ q`. -/
structure Rounds
    (f : Format)
    (m : Nat)
    (q : Int)
    (x : ℚ) : Prop where
  low : ((m : ℚ) - 1 / 2) * 2 ^ q ≤ x
  high : x ≤ ((m : ℚ) + 1 / 2) * 2 ^ q
  odd : m % 2 = 1 →
    ((m : ℚ) - 1 / 2) * 2 ^ q < x ∧ x < ((m : ℚ) + 1 / 2) * 2 ^ q
  /- The number below a power of two is only half as far away. -/
  power : m = 2 ^ f.fraction → f.leastScale < q →
    ((m : ℚ) - 1 / 4) * 2 ^ q ≤ x

theorem Rounds.ge
    {f : Format}
    {m : Nat}
    {q : Int}
    {x : ℚ}
    (hRounds : Rounds f m q x)
    (hPos : 0 < m) :
    2 ^ (q - 1) ≤ x := by
  have hMantissa : (1 : ℚ) ≤ m := by exact_mod_cast hPos
  have hUnit : (0 : ℚ) < 2 ^ q := zpow_pos two_pos _
  calc (2 : ℚ) ^ (q - 1)
      = (1 - 1 / 2) * 2 ^ q := by
        rw [zpow_sub_one₀ two_ne_zero]
        ring
    _ ≤ ((m : ℚ) - 1 / 2) * 2 ^ q := by gcongr
    _ ≤ x := hRounds.low

theorem Rounds.pos
    {f : Format}
    {m : Nat}
    {q : Int}
    {x : ℚ}
    (hRounds : Rounds f m q x)
    (hPos : 0 < m) :
    0 < x :=
  (zpow_pos two_pos _).trans_le (hRounds.ge hPos)

theorem Rounds.lt
    {f : Format}
    {m : Nat}
    {q : Int}
    {x : ℚ}
    (hRounds : Rounds f m q x)
    (hFits : f.Fits m q) :
    x < 2 ^ ((f.fraction : Int) + 1 + q) := by
  have hUnit : (0 : ℚ) < 2 ^ q := zpow_pos two_pos _
  have hSmall : (m : ℚ) + 1 ≤ 2 ^ (f.fraction + 1) := by
    exact_mod_cast hFits.small
  calc x
      ≤ ((m : ℚ) + 1 / 2) * 2 ^ q := hRounds.high
    _ < 2 ^ (f.fraction + 1) * 2 ^ q := by
        apply mul_lt_mul_of_pos_right _ hUnit
        linarith
    _ = 2 ^ ((f.fraction : Int) + 1 + q) := by
        rw [zpow_add₀ two_ne_zero, ← zpow_natCast]
        push_cast
        rfl

------------------------------------------------------------
-- Nearest Numbers
------------------------------------------------------------

/- What is rounded at a known scale. -/
theorem nearest_of_scale
    {f : Format}
    {num den n : Nat}
    {s : Int}
    (hNum : num ≠ 0)
    (hDen : 0 < den)
    (hScale : max (Format.quotientLog2 num den - (f.fraction : Int))
      f.leastScale = s)
    (hLow : ((n : ℚ) - 1 / 2) * 2 ^ s ≤ num / den)
    (hHigh : (num : ℚ) / den ≤ (n + 1 / 2) * 2 ^ s)
    (hOdd : n % 2 = 1 → ((n : ℚ) - 1 / 2) * 2 ^ s < num / den ∧
      (num : ℚ) / den < (n + 1 / 2) * 2 ^ s) :
    f.nearest num den = min f.infinityBits (f.code n s) := by
  have hUnit : (0 : ℚ) < 2 ^ s := zpow_pos two_pos _
  have hScaled : 0 < den * Nat.pow 2 s.toNat :=
    Nat.mul_pos hDen (Nat.pow_pos two_pos)
  unfold Format.nearest Format.code
  rw [if_neg hNum]
  dsimp only
  rw [hScale, roundQuotient_eq (n := n) hScaled]
  · rfl
  · rwa [scaled_quotient, le_div_iff₀ hUnit]
  · rwa [scaled_quotient, div_le_iff₀ hUnit]
  · intro hIs
    rw [scaled_quotient, lt_div_iff₀ hUnit, div_lt_iff₀ hUnit]
    exact hOdd hIs

/- The scale of what is not below the power of two at a scale. -/
theorem scale_eq
    {f : Format}
    {num den : Nat}
    {s : Int}
    (hNum : 0 < num)
    (hDen : 0 < den)
    (hLeast : f.leastScale ≤ s)
    (hHigh : (num : ℚ) / den < 2 ^ ((f.fraction : Int) + 1 + s))
    (hLow : (2 : ℚ) ^ ((f.fraction : Int) + s) ≤ num / den ∨
      s = f.leastScale) :
    max (Format.quotientLog2 num den - (f.fraction : Int))
      f.leastScale = s := by
  rcases quotientLog2_bounds hNum hDen with ⟨hBelow, hAbove⟩
  have hAtMost : Format.quotientLog2 num den < f.fraction + 1 + s :=
    (zpow_lt_zpow_iff_right₀ one_lt_two).mp (hBelow.trans_lt hHigh)
  rcases hLow with hLow | hLow
  · have hAtLeast : (f.fraction : Int) + s <
        Format.quotientLog2 num den + 1 :=
      (zpow_lt_zpow_iff_right₀ one_lt_two).mp (hLow.trans_lt hAbove)
    omega
  · omega

/-
  Just below a power of two the scale is one less, and the
  mantissa rounds up to a number of one bit more.
-/
theorem nearest_below_power
    {f : Format}
    {num den : Nat}
    {q : Int}
    (hNum : 0 < num)
    (hDen : 0 < den)
    (hLeast : f.leastScale < q)
    (hLow : ((2 : ℚ) ^ f.fraction - 1 / 4) * 2 ^ q ≤ num / den)
    (hHigh : (num : ℚ) / den < 2 ^ f.fraction * 2 ^ q) :
    f.nearest num den =
      min f.infinityBits (f.code (2 ^ f.fraction) q) := by
  have hOne : (1 : ℚ) ≤ 2 ^ f.fraction := one_le_pow₀ one_le_two
  have hHalf : (0 : ℚ) < 2 ^ (q - 1) := zpow_pos two_pos _
  have hUnit : (2 : ℚ) ^ q = 2 * 2 ^ (q - 1) := by
    rw [zpow_sub_one₀ two_ne_zero]
    ring
  rw [hUnit] at hLow hHigh
  have hScale : max
      (Format.quotientLog2 num den - (f.fraction : Int))
      f.leastScale = q - 1 := by
    apply scale_eq hNum hDen (by omega)
    · rw [add_assoc, add_sub_cancel, zpow_add₀ two_ne_zero,
        zpow_natCast, hUnit]
      exact hHigh
    · left
      rw [zpow_add₀ two_ne_zero, zpow_natCast]
      nlinarith
  have hCode : f.code (2 ^ (f.fraction + 1)) (q - 1) =
      f.code (2 ^ f.fraction) q := by
    have hNext : (q - f.leastScale).toNat =
        (q - 1 - f.leastScale).toNat + 1 := by omega
    rw [Format.code, Format.code, hNext, Nat.pow_succ, Nat.succ_mul]
    omega
  rw [nearest_of_scale (n := 2 ^ (f.fraction + 1)) hNum.ne' hDen
    hScale, hCode]
  · push_cast
    rw [pow_succ]
    linarith
  · push_cast
    rw [pow_succ]
    linarith
  · intro hIs
    rw [Nat.pow_succ] at hIs
    omega

/- Whatever rounds to a number has the number's bits. -/
theorem nearest_eq_code
    {f : Format}
    {num den m : Nat}
    {q : Int}
    (hDen : 0 < den)
    (hPos : 0 < m)
    (hFits : f.Fits m q)
    (hRounds : Rounds f m q (num / den)) :
    f.nearest num den = f.code m q := by
  have hDen' : (0 : ℚ) < den := Nat.cast_pos.mpr hDen
  have hNum : 0 < num := by
    have hQuotient := (div_pos_iff_of_pos_right hDen').mp
      (hRounds.pos hPos)
    exact_mod_cast hQuotient
  by_cases hAt : (2 : ℚ) ^ ((f.fraction : Int) + q) ≤ num / den ∨
      q = f.leastScale
  · rw [nearest_of_scale hNum.ne' hDen
      (scale_eq hNum hDen hFits.least (hRounds.lt hFits) hAt)
      hRounds.low hRounds.high hRounds.odd]
    exact Nat.min_eq_right hFits.finite.le
  · -- Only a power of two has something below it that rounds to it.
    rw [not_or, not_le, zpow_add₀ two_ne_zero, zpow_natCast] at hAt
    rcases hAt with ⟨hBelow, hOther⟩
    have hLeast := lt_of_le_of_ne hFits.least (Ne.symm hOther)
    have hPower : m = 2 ^ f.fraction := by
      have hLeading := hFits.leading.resolve_right hOther
      have hHalf : (m : ℚ) - 1 / 2 < 2 ^ f.fraction :=
        lt_of_mul_lt_mul_right (hRounds.low.trans_lt hBelow)
          (zpow_pos two_pos q).le
      have hLess : (m : ℚ) < 2 ^ f.fraction + 1 := by linarith
      have hLess' : m < 2 ^ f.fraction + 1 := by exact_mod_cast hLess
      omega
    have hQuarter := hRounds.power hPower hLeast
    have hFinite := hFits.finite
    rw [hPower] at hQuarter hFinite ⊢
    push_cast at hQuarter
    rw [nearest_below_power hNum hDen hLeast hQuarter hBelow]
    exact Nat.min_eq_right hFinite.le

------------------------------------------------------------
-- Decimals
------------------------------------------------------------

/-
  Formats whose least numbers are neither too small for the
  guard of the reading nor for the grids of the printing.
-/
structure Format.Balanced
    (f : Format) : Prop where
  deep : -(Nat.pow 2 f.exponent : Int) < f.leastScale
  fine : -(21 * f.fraction + 100 : Int) ≤ f.leastScale

theorem Format.balanced_double : Format.double.Balanced :=
  ⟨by decide, by decide⟩

/- How many digits a number has tells how large it is. -/
theorem digitCount_bounds
    {n : Nat}
    (hPos : n ≠ 0) :
    (10 : ℚ) ^ ((Format.digitCount n : Int) - 1) ≤ n ∧
      (n : ℚ) < 10 ^ (Format.digitCount n : Int) := by
  have hLength := Nat.length_toDigits_pos (b := 10) (n := n)
  have hHigh : n < 10 ^ (Nat.toDigits 10 n).length :=
    (Nat.length_toDigits_le_iff (by decide) hLength).mp le_rfl
  rw [Format.digitCount, if_neg hPos]
  rcases Nat.exists_eq_succ_of_ne_zero hLength.ne' with ⟨k, hCount⟩
  have hLow : 10 ^ k ≤ n := by
    rcases Nat.eq_zero_or_pos k with rfl | hMore
    · exact Nat.one_le_iff_ne_zero.mpr hPos
    · have hNot := mt (Nat.length_toDigits_le_iff
        (b := 10) (n := n) (by decide) hMore).mpr (by omega)
      exact Nat.not_lt.mp hNot
  rw [hCount] at hHigh ⊢
  constructor
  · rw [Nat.cast_succ, add_sub_cancel_right, zpow_natCast]
    exact_mod_cast hLow
  · rw [zpow_natCast]
    exact_mod_cast hHigh

/- The finite numbers are below the power that is guarded. -/
theorem Format.Fits.magnitude_le
    {f : Format}
    {m : Nat}
    {q : Int}
    (hFits : f.Fits m q) :
    (f.fraction : Int) + 1 + q ≤ Nat.pow 2 f.exponent := by
  have hFinite := hFits.finite
  have hLeast := hFits.least
  have hBias : f.leastScale ≤ 1 - (f.fraction : Int) := by
    rw [Format.leastScale]
    omega
  unfold Format.code Format.infinityBits at hFinite
  simp only [Nat.pow_eq] at hFinite ⊢
  rcases hFits.leading with hLeading | hScale
  · have hField : (q - f.leastScale).toNat + 1 <
        2 ^ f.exponent - 1 := by
      apply Nat.lt_of_mul_lt_mul_right (a := 2 ^ f.fraction)
      rw [Nat.succ_mul]
      omega
    omega
  · have hField : 0 < 2 ^ f.exponent - 1 := by
      apply Nat.pos_of_ne_zero
      intro hNone
      rw [hNone, Nat.zero_mul] at hFinite
      omega
    omega

/- Whatever decimal rounds to a number reads as its bits. -/
theorem ofDecimal_eq_code
    {f : Format}
    {mantissa m : Nat}
    {exponent q : Int}
    (hBalanced : f.Balanced)
    (hPos : 0 < m)
    (hFits : f.Fits m q)
    (hRounds : Rounds f m q (mantissa * 10 ^ exponent)) :
    f.ofDecimal mantissa exponent = f.code m q := by
  have hPower := zpow_pos (show (0 : ℚ) < 10 by norm_num) exponent
  have hMantissa : mantissa ≠ 0 := by
    rintro rfl
    have hNone := hRounds.pos hPos
    simp at hNone
  rcases digitCount_bounds hMantissa with ⟨hDigitsLow, hDigitsHigh⟩
  have hLow : (10 : ℚ) ^
      ((Format.digitCount mantissa : Int) + exponent - 1) ≤
        mantissa * 10 ^ exponent := by
    rw [add_sub_right_comm, zpow_add₀ (by norm_num)]
    exact mul_le_mul_of_nonneg_right hDigitsLow hPower.le
  have hHigh : (mantissa : ℚ) * 10 ^ exponent <
      10 ^ ((Format.digitCount mantissa : Int) + exponent) := by
    rw [zpow_add₀ (by norm_num)]
    exact mul_lt_mul_of_pos_right hDigitsHigh hPower
  have hNotLarge : ¬ (Nat.pow 2 f.exponent : Int) <
      (Format.digitCount mantissa : Int) + exponent := by
    intro hLarge
    have hTwo : (2 : ℚ) ^
        ((Format.digitCount mantissa : Int) + exponent - 1) ≤
          10 ^ ((Format.digitCount mantissa : Int) + exponent - 1) :=
      zpow_le_zpow_left₀ (by omega) zero_le_two (by norm_num)
    have hLess := (zpow_lt_zpow_iff_right₀ one_lt_two).mp
      ((hTwo.trans hLow).trans_lt (hRounds.lt hFits))
    have hMagnitude := hFits.magnitude_le
    omega
  have hNotSmall : ¬ (Format.digitCount mantissa : Int) + exponent <
      -(Nat.pow 2 f.exponent : Int) := by
    intro hSmall
    have hTwo : (10 : ℚ) ^
        ((Format.digitCount mantissa : Int) + exponent) ≤
          2 ^ ((Format.digitCount mantissa : Int) + exponent) :=
      zpow_le_zpow_of_nonpos two_pos (by norm_num) (by omega)
    have hLess := (zpow_lt_zpow_iff_right₀ one_lt_two).mp
      ((hRounds.ge hPos).trans_lt (hHigh.trans_le hTwo))
    have hDeep := hBalanced.deep
    have hLeast := hFits.least
    omega
  rw [Format.ofDecimal, if_neg hMantissa, if_neg hNotLarge,
    if_neg hNotSmall]
  apply nearest_eq_code (Nat.pow_pos (by decide)) hPos hFits
  simp only [Nat.pow_eq]
  push_cast
  rwa [mul_div_assoc, ← zpow_eq_div (by norm_num)]

end Binary

end Stratagem

import Stratagem.Proofs.Binary.Rounding

/-
  The shortest decimal reads back.

  The search over decimal grids ends at a decimal inside the
  rounding interval, and what lies there rounds to the number
  that is printed.  The last grid that is tried is finer than
  half the distance of two neighbours, so it has a point
  between the number and the upper end of its interval.

  Key definitions include:
    * `Binary.Interval.Contains`

  Main declarations:
    * `Binary.Interval.contains_of_candidate?`
    * `Binary.search_contains`
    * `Binary.shortest_rounds`
    * `Binary64.render_reads_back`
-/

namespace Stratagem

namespace Binary

------------------------------------------------------------
-- Intervals
------------------------------------------------------------

namespace Interval

/- The rationals of an interval; the ends may be left out. -/
def Contains
    (i : Interval)
    (x : ℚ) : Prop :=
  if i.closed then
    i.low * (2 : ℚ) ^ i.scale ≤ x ∧ x ≤ i.high * 2 ^ i.scale
  else
    i.low * (2 : ℚ) ^ i.scale < x ∧ x < i.high * 2 ^ i.scale

theorem contains_of_lt
    {i : Interval}
    {x : ℚ}
    (hLow : i.low * (2 : ℚ) ^ i.scale < x)
    (hHigh : x < i.high * 2 ^ i.scale) :
    i.Contains x := by
  unfold Contains
  split
  · exact ⟨hLow.le, hHigh.le⟩
  · exact ⟨hLow, hHigh⟩

theorem Contains.bounds
    {i : Interval}
    {x : ℚ}
    (hContains : i.Contains x) :
    i.low * (2 : ℚ) ^ i.scale ≤ x ∧ x ≤ i.high * 2 ^ i.scale := by
  unfold Contains at hContains
  split at hContains
  · exact hContains
  · exact ⟨hContains.1.le, hContains.2.le⟩

theorem Contains.lt
    {i : Interval}
    {x : ℚ}
    (hContains : i.Contains x)
    (hOpen : ¬ i.closed = true) :
    i.low * (2 : ℚ) ^ i.scale < x ∧ x < i.high * 2 ^ i.scale := by
  rwa [Contains, if_neg hOpen] at hContains

/- The lower end of the interval of a number. -/
theorem le_low_ofValue
    (f : Format)
    (m : Nat)
    (q : Int) :
    4 * m ≤ (ofValue f m q).low + 2 ∧
      (m = 2 ^ f.fraction → f.leastScale < q →
        4 * m ≤ (ofValue f m q).low + 1) := by
  unfold ofValue
  dsimp only [Nat.pow_eq]
  constructor
  · split <;> omega
  · intro hPower hLeast
    rw [if_pos ⟨beq_iff_eq.mpr hPower, hLeast⟩]
    omega

/- What lies in the interval of a number rounds to it. -/
theorem rounds_of_contains
    {f : Format}
    {m : Nat}
    {q : Int}
    {x : ℚ}
    (hContains : (ofValue f m q).Contains x) :
    Rounds f m q x := by
  have hUnit : (0 : ℚ) < 2 ^ (q - 2) := zpow_pos two_pos _
  have hScale : (2 : ℚ) ^ q = 4 * 2 ^ (q - 2) := by
    rw [zpow_sub₀ two_ne_zero]
    ring
  have hHigh : ((ofValue f m q).high : ℚ) = 4 * m + 2 := by
    simp [ofValue]
  rcases le_low_ofValue f m q with ⟨hLow, hPower⟩
  have hLow' : (4 : ℚ) * m ≤ (ofValue f m q).low + 2 := by
    exact_mod_cast hLow
  have hBounds := hContains.bounds
  rw [hHigh] at hBounds
  constructor
  · calc ((m : ℚ) - 1 / 2) * 2 ^ q
        = (4 * m - 2) * 2 ^ (q - 2) := by rw [hScale]; ring
      _ ≤ (ofValue f m q).low * 2 ^ (q - 2) := by gcongr; linarith
      _ ≤ x := hBounds.1
  · calc x
        ≤ (4 * m + 2) * 2 ^ (q - 2) := hBounds.2
      _ = ((m : ℚ) + 1 / 2) * 2 ^ q := by rw [hScale]; ring
  · intro hOdd
    have hOpen := hContains.lt (by simp [ofValue, hOdd])
    rw [hHigh] at hOpen
    constructor
    · calc ((m : ℚ) - 1 / 2) * 2 ^ q
          = (4 * m - 2) * 2 ^ (q - 2) := by rw [hScale]; ring
        _ ≤ (ofValue f m q).low * 2 ^ (q - 2) := by gcongr; linarith
        _ < x := hOpen.1
    · calc x
          < (4 * m + 2) * 2 ^ (q - 2) := hOpen.2
        _ = ((m : ℚ) + 1 / 2) * 2 ^ q := by rw [hScale]; ring
  · intro hIs hLeast
    have hQuarter : (4 : ℚ) * m ≤ (ofValue f m q).low + 1 := by
      exact_mod_cast hPower hIs hLeast
    calc ((m : ℚ) - 1 / 4) * 2 ^ q
        = (4 * m - 1) * 2 ^ (q - 2) := by rw [hScale]; ring
      _ ≤ (ofValue f m q).low * 2 ^ (q - 2) := by gcongr; linarith
      _ ≤ x := hBounds.1

------------------------------------------------------------
-- Grids
------------------------------------------------------------

section Grid

variable {i : Interval} {num den : Nat} {p : Int}
variable (hNum : 0 < num)
variable (hUnits : (den : ℚ) * 2 ^ i.scale = num * 10 ^ p)

include hNum hUnits

theorem units_le_iff
    (a n : Nat) :
    (a * num ≤ n * den ↔ (a : ℚ) * 2 ^ i.scale ≤ n * 10 ^ p) ∧
      (n * den ≤ a * num ↔
        (n : ℚ) * 10 ^ p ≤ a * 2 ^ i.scale) := by
  have hUnit : (0 : ℚ) < 2 ^ i.scale := zpow_pos two_pos _
  have hFactor : (0 : ℚ) < num / 2 ^ i.scale :=
    div_pos (Nat.cast_pos.mpr hNum) hUnit
  have hEnd : (a : ℚ) * num =
      a * 2 ^ i.scale * (num / 2 ^ i.scale) := by
    rw [mul_assoc, mul_div_cancel₀ _ hUnit.ne']
  have hPoint : (n : ℚ) * den =
      n * 10 ^ p * (num / 2 ^ i.scale) := by
    rw [mul_assoc, ← mul_div_assoc, mul_comm (10 ^ p : ℚ), ← hUnits,
      mul_div_cancel_right₀ _ hUnit.ne']
  rw [← @Nat.cast_le ℚ, ← @Nat.cast_le ℚ, Nat.cast_mul, Nat.cast_mul,
    hEnd, hPoint, mul_le_mul_iff_left₀ hFactor,
    mul_le_mul_iff_left₀ hFactor]
  exact ⟨Iff.rfl, Iff.rfl⟩

/- Whether a point of a grid is in the interval is computed. -/
theorem holds_iff
    (n : Nat) :
    i.holds num den n = true ↔ i.Contains (n * 10 ^ p) := by
  unfold holds Contains
  split
  · rw [Bool.and_eq_true, decide_eq_true_eq, decide_eq_true_eq,
      (units_le_iff hNum hUnits _ n).1,
      (units_le_iff hNum hUnits _ n).2]
  · rw [Bool.and_eq_true, decide_eq_true_eq, decide_eq_true_eq,
      ← not_le, ← not_le, (units_le_iff hNum hUnits _ n).1,
      (units_le_iff hNum hUnits _ n).2, not_le, not_le]

/- A grid finer than the way up to the end has a point there. -/
theorem contains_next
    (hLow : i.low ≤ i.value)
    (hFine : (i.value : ℚ) * 2 ^ i.scale + 10 ^ p <
      i.high * 2 ^ i.scale) :
    i.Contains
      (((i.value * num / den + 1 : Nat) : ℚ) * 10 ^ p) := by
  have hDen : 0 < den := by
    apply Nat.pos_of_ne_zero
    rintro rfl
    have hNum' : (0 : ℚ) < num := Nat.cast_pos.mpr hNum
    have hGrid := zpow_pos (show (0 : ℚ) < 10 by norm_num) p
    rw [Nat.cast_zero, zero_mul] at hUnits
    exact (mul_pos hNum' hGrid).ne hUnits
  have hBelow := (units_le_iff hNum hUnits i.value
    (i.value * num / den)).2.mp (Nat.div_mul_le_self _ den)
  have hAbove := mt (units_le_iff hNum hUnits i.value
    (i.value * num / den + 1)).2.mpr
    (Nat.not_le.mpr
      (Nat.lt_mul_of_div_lt (Nat.lt_succ_self _) hDen))
  rw [not_le] at hAbove
  apply contains_of_lt
  · calc (i.low : ℚ) * 2 ^ i.scale
        ≤ i.value * 2 ^ i.scale := by
          gcongr
      _ < _ := hAbove
  · calc ((i.value * num / den + 1 : Nat) : ℚ) * 10 ^ p
        = (i.value * num / den : Nat) * 10 ^ p + 10 ^ p := by
          push_cast
          ring
      _ ≤ i.value * 2 ^ i.scale + 10 ^ p := by gcongr
      _ < i.high * 2 ^ i.scale := hFine

end Grid

/- The units in which a point of a grid is compared. -/
theorem units_eq
    (i : Interval)
    (p : Int) :
    ((Nat.pow 2 (-i.scale).toNat * Nat.pow 10 p.toNat : Nat) : ℚ) *
        2 ^ i.scale =
      ((Nat.pow 2 i.scale.toNat * Nat.pow 10 (-p).toNat : Nat) : ℚ) *
        10 ^ p := by
  rw [zpow_eq_div two_ne_zero, zpow_eq_div (b := 10) (by norm_num)]
  simp only [Nat.pow_eq]
  push_cast
  field_simp

theorem units_pos
    (i : Interval)
    (p : Int) :
    0 < Nat.pow 2 i.scale.toNat * Nat.pow 10 (-p).toNat :=
  Nat.mul_pos (Nat.pow_pos two_pos) (Nat.pow_pos (by decide))

/- A candidate is in the interval. -/
theorem contains_of_candidate?
    {i : Interval}
    {p : Int}
    {n : Nat}
    (hSome : i.candidate? p = some n) :
    i.Contains (n * 10 ^ p) := by
  rw [← holds_iff (units_pos i p) (units_eq i p)]
  unfold candidate? at hSome
  dsimp only at hSome
  split at hSome
  · rename_i hThis hNext
    rw [Option.some.injEq] at hSome
    rw [← hSome]
    split
    · exact hNext
    · exact hThis
  · rename_i hThis _
    rw [Option.some.injEq] at hSome
    rwa [← hSome]
  · rename_i _ hNext
    rw [Option.some.injEq] at hSome
    rwa [← hSome]
  · cases hSome

/- A fine grid has a candidate. -/
theorem candidate?_ne_none
    {i : Interval}
    {p : Int}
    (hLow : i.low ≤ i.value)
    (hFine : (i.value : ℚ) * 2 ^ i.scale + 10 ^ p <
      i.high * 2 ^ i.scale) :
    i.candidate? p ≠ none := by
  have hNext := contains_next (units_pos i p) (units_eq i p) hLow hFine
  rw [← holds_iff (units_pos i p) (units_eq i p)] at hNext
  unfold candidate?
  dsimp only
  rw [hNext]
  split
  · exact Option.some_ne_none _
  · rename_i hNot
    cases hNot
  · exact Option.some_ne_none _
  · rename_i hNot
    cases hNot

end Interval

------------------------------------------------------------
-- Search
------------------------------------------------------------

/- If some grid has a candidate, the search ends with one. -/
theorem search_contains
    {i : Interval}
    {n : Nat}
    {p : Int}
    (hSome : ∃ k < n, i.candidate? (p - (k : Nat)) ≠ none) :
    i.Contains ((search i n p).1 * 10 ^ (search i n p).2) := by
  induction n generalizing p with
  | zero =>
      rcases hSome with ⟨k, hNone, _⟩
      exact absurd hNone (Nat.not_lt_zero k)
  | succ n ih =>
      rw [search]
      cases hHere : i.candidate? p with
      | some digits => exact Interval.contains_of_candidate? hHere
      | none =>
          apply ih
          rcases hSome with ⟨k, hLess, hLater⟩
          cases k with
          | zero => simp [hHere] at hLater
          | succ k =>
              refine ⟨k, Nat.lt_of_succ_lt_succ hLess, ?_⟩
              rwa [Nat.cast_succ, add_comm, ← sub_sub] at hLater

/- Powers of ten against powers of two, roughly. -/
theorem ten_zpow_lt_two_zpow
    {p s : Int}
    (hLarge : 0 ≤ p → 10 * p < 3 * s)
    (hSmall : p < 0 → 3 * p < s) :
    (10 : ℚ) ^ p < 2 ^ s := by
  rcases Int.lt_or_le p 0 with hNegative | hOther
  · calc (10 : ℚ) ^ p
        ≤ 8 ^ p := zpow_le_zpow_of_nonpos (by norm_num) (by norm_num)
            hNegative.le
      _ = 2 ^ (3 * p) := by
          rw [zpow_mul]
          norm_num
      _ < 2 ^ s := zpow_lt_zpow_right₀ one_lt_two (hSmall hNegative)
  · apply lt_of_pow_lt_pow_left₀ 3 (zpow_pos two_pos s).le
    calc ((10 : ℚ) ^ p) ^ 3
        = 1000 ^ p := by
          rw [← zpow_natCast, ← zpow_mul, mul_comm, zpow_mul]
          norm_num
      _ ≤ 1024 ^ p :=
          zpow_le_zpow_left₀ hOther (by norm_num) (by norm_num)
      _ = 2 ^ (10 * p) := by
          rw [zpow_mul]
          norm_num
      _ < 2 ^ (s * 3) :=
          zpow_lt_zpow_right₀ one_lt_two
            (by have := hLarge hOther; omega)
      _ = ((2 : ℚ) ^ s) ^ 3 := by
          rw [zpow_mul, ← zpow_natCast]
          rfl

/- The shortest decimal of a number rounds to it. -/
theorem shortest_rounds
    {f : Format}
    {m : Nat}
    {q : Int}
    (hBalanced : f.Balanced)
    (hPos : 0 < m)
    (hFits : f.Fits m q) :
    Rounds f m q
      ((shortest f m q).1 * 10 ^ (shortest f m q).2) := by
  apply Interval.rounds_of_contains
  apply search_contains
  refine ⟨f.fraction + 7, by omega, ?_⟩
  have hLog : m.log2 ≤ f.fraction :=
    Nat.lt_succ_iff.mp ((Nat.log2_lt hPos.ne').mpr hFits.small)
  have hFine := hBalanced.fine
  have hLeast := hFits.least
  have hGrid : (10 : ℚ) ^ (((m.log2 : Int) + 1 + q) * 3 / 10 + 3 -
      ((f.fraction + 7 : Nat) : Int)) < 2 ^ (q - 1) := by
    apply ten_zpow_lt_two_zpow
    · intro _
      omega
    · intro _
      omega
  apply Interval.candidate?_ne_none
  · exact Nat.sub_le _ _
  · have hHalf : (2 : ℚ) ^ (q - 1) = 2 * 2 ^ (q - 2) := by
      rw [← zpow_one_add₀ two_ne_zero]
      congr 1
      omega
    rw [hHalf] at hGrid
    change ((4 * m : Nat) : ℚ) * 2 ^ (q - 2) + _ <
      ((4 * m + 2 : Nat) : ℚ) * 2 ^ (q - 2)
    push_cast at hGrid ⊢
    linarith

------------------------------------------------------------
-- Printed Numbers
------------------------------------------------------------

/- A finite number is printed as a decimal that reads back. -/
theorem render_reads_back
    {f : Format}
    {bits m : Nat}
    {q : Int}
    {negative : Bool}
    (hBalanced : f.Balanced)
    (hFits : f.Fits m q)
    (hDecode : f.decode bits = .finite negative m q) :
    ∃ digits p,
      render f bits =
        (if negative then ['-'] else []) ++ positional digits p ∧
      ∀ (mantissa : Nat) (exponent : Int),
        (mantissa : ℚ) * 10 ^ exponent = digits * 10 ^ p →
          f.ofDecimal mantissa exponent = f.code m q := by
  unfold render
  rw [hDecode]
  dsimp only
  by_cases hZero : m = 0
  · rw [if_pos hZero]
    refine ⟨0, 0, rfl, ?_⟩
    intro mantissa exponent hSame
    have hNone : mantissa = 0 := by
      simpa [zpow_ne_zero] using hSame
    have hScale : q = f.leastScale := by
      apply hFits.leading.resolve_left
      rw [hZero, Nat.not_le]
      exact Nat.pow_pos two_pos
    rw [Format.ofDecimal, if_pos hNone, Format.code, hZero, hScale]
    simp
  · rw [if_neg hZero]
    refine ⟨_, _, rfl, ?_⟩
    intro mantissa exponent hSame
    apply ofDecimal_eq_code hBalanced (Nat.pos_of_ne_zero hZero) hFits
    rw [hSame]
    exact shortest_rounds hBalanced (Nat.pos_of_ne_zero hZero) hFits

end Binary

/- So is a finite number of sixty-four bits, with its sign. -/
theorem Binary64.render_reads_back
    {x : Binary64}
    (hFinite : x.isFinite = true) :
    ∃ negative digits p,
      x.render = (if negative then ['-'] else []) ++
        Binary.positional digits p ∧
      ∀ (mantissa : Nat) (exponent : Int),
        (mantissa : ℚ) * 10 ^ exponent = digits * 10 ^ p →
          Binary64.ofDecimal negative mantissa exponent = x := by
  unfold isFinite at hFinite
  cases hDecode : Binary.Format.double.decode x.bits.toNat with
  | nan => simp [hDecode, Binary.Value.isFinite] at hFinite
  | infinite => simp [hDecode, Binary.Value.isFinite] at hFinite
  | finite negative m q =>
      have hBits : x.bits.toNat < 2 * Binary.Format.double.signBit :=
        x.bits.toNat_lt
      rcases Binary.Format.of_decode hBits hDecode with
        ⟨hFits, hWhole⟩
      rcases Binary.render_reads_back Binary.Format.balanced_double
        hFits hDecode with ⟨digits, p, hText, hRead⟩
      refine ⟨negative, digits, p, hText, ?_⟩
      intro mantissa exponent hSame
      unfold Binary64.ofDecimal
      dsimp only
      rw [hRead mantissa exponent hSame, ← hWhole]
      simp

end Stratagem

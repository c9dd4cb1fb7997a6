import Mathlib.Algebra.Order.Field.Power
import Mathlib.Algebra.Order.Ring.Rat
import Mathlib.Data.Rat.Cast.Order
import Mathlib.Order.Monotone.Basic
import Mathlib.Tactic.LinearCombination
import Mathlib.Tactic.Ring
import Scoping.Decimal.Text

/-!
# Decimals and the doubles that they round to

The comparisons of `Rounding.contains` multiply both sides until they are natural numbers; over the
rationals they say that a decimal lies in the interval of the double (`contains_iff`). The decimal
that is chosen for a double always does (`owns_shortest`), whether it was found on one of the grids
or is the double itself.

Counted upwards from zero, the intervals of the doubles touch each other end to end
(`high_roundingAt`), and of two that touch only one contains the common end, because only the even
ones are closed. So no number belongs to two of them (`index_eq_of_owns`).
-/

namespace Scoping

/-- The number that a decimal stands for. -/
def Decimal.toRat (d : Decimal) : ℚ := d.coefficient * 10 ^ d.exponent

namespace Rounding

/-! ## Exact comparison -/

def low (r : Rounding) : ℚ := r.below * 2 ^ r.unit

def high (r : Rounding) : ℚ := r.above * 2 ^ r.unit

/-- Whether a number rounds to the fraction. -/
def Owns (r : Rounding) (x : ℚ) : Prop :=
  if r.closed then r.low ≤ x ∧ x ≤ r.high else r.low < x ∧ x < r.high

theorem Owns.bounds {r : Rounding} {x : ℚ} (h : r.Owns x) : r.low ≤ x ∧ x ≤ r.high := by
  unfold Owns at h
  split at h
  · exact h
  · exact ⟨h.1.le, h.2.le⟩

theorem owns_of_lt {r : Rounding} {x : ℚ} (hlow : r.low < x) (hhigh : x < r.high) : r.Owns x := by
  unfold Owns
  split
  · exact ⟨hlow.le, hhigh.le⟩
  · exact ⟨hlow, hhigh⟩

theorem zpow_mul_pow_toNat {b : ℚ} (hb : b ≠ 0) (z : ℤ) :
    b ^ z * b ^ (-z).toNat = b ^ z.toNat := by
  rw [← zpow_natCast, ← zpow_natCast, ← zpow_add₀ hb]
  congr 1
  omega

section scale

variable (unit exponent : ℤ) (m n : ℕ)

/-- What both sides of a comparison are multiplied by. -/
def scale : ℚ := 2 ^ (-unit).toNat * 10 ^ (-exponent).toNat

theorem scale_pos : 0 < scale unit exponent := by
  unfold scale
  exact mul_pos (pow_pos two_pos _) (pow_pos (by norm_num) _)

theorem mul_scale_binary :
    (m * 2 ^ unit : ℚ) * scale unit exponent = (m * binaryFactor unit exponent : ℕ) := by
  calc (m * 2 ^ unit : ℚ) * scale unit exponent
    _ = m * ((2 ^ unit * 2 ^ (-unit).toNat) * 10 ^ (-exponent).toNat) := by
      rw [scale]
      ring
    _ = (m * binaryFactor unit exponent : ℕ) := by
      rw [zpow_mul_pow_toNat two_ne_zero, binaryFactor, Nat.pow_eq, Nat.pow_eq]
      push_cast
      rfl

theorem mul_scale_decimal :
    (n * 10 ^ exponent : ℚ) * scale unit exponent = (n * decimalFactor unit exponent : ℕ) := by
  calc (n * 10 ^ exponent : ℚ) * scale unit exponent
    _ = n * (2 ^ (-unit).toNat * (10 ^ exponent * 10 ^ (-exponent).toNat)) := by
      rw [scale]
      ring
    _ = (n * decimalFactor unit exponent : ℕ) := by
      rw [zpow_mul_pow_toNat (by norm_num), decimalFactor, Nat.pow_eq, Nat.pow_eq]
      push_cast
      rfl

end scale

/-- The comparisons of naturals compare the decimal with the ends of the interval. -/
theorem contains_iff {r : Rounding} {exponent : ℤ} {coefficient : ℕ} :
    r.contains exponent coefficient = true ↔ r.Owns (coefficient * 10 ^ exponent) := by
  have hpos := scale_pos r.unit exponent
  have hlow := mul_scale_binary r.unit exponent r.below
  have hhigh := mul_scale_binary r.unit exponent r.above
  have hhere := mul_scale_decimal r.unit exponent coefficient
  unfold contains Owns low high
  split
  · rw [Bool.and_eq_true, decide_eq_true_iff, decide_eq_true_iff, ← Nat.cast_le (α := ℚ),
      ← Nat.cast_le (α := ℚ), ← hlow, ← hhigh, ← hhere, mul_le_mul_iff_left₀ hpos,
      mul_le_mul_iff_left₀ hpos]
  · rw [Bool.and_eq_true, decide_eq_true_iff, decide_eq_true_iff, ← Nat.cast_lt (α := ℚ),
      ← Nat.cast_lt (α := ℚ), ← hlow, ← hhigh, ← hhere, mul_lt_mul_iff_left₀ hpos,
      mul_lt_mul_iff_left₀ hpos]

/-! ## The decimal that is chosen -/

theorem owns_of_onGrid {r : Rounding} {exponent : ℤ} {coefficient : ℕ}
    (h : r.onGrid exponent = some coefficient) : r.Owns (coefficient * 10 ^ exponent) := by
  rw [← contains_iff]
  unfold onGrid at h
  simp only at h
  split at h
  · next hdown hup =>
    cases h
    split
    · exact hdown
    · exact hup
  · next hdown _ =>
    cases h
    exact hdown
  · next _ hup =>
    cases h
    exact hup
  · cases h

theorem toRat_exact (r : Rounding) : r.exact.toRat = r.value * 2 ^ r.unit := by
  unfold exact
  split
  · next h =>
    have hunit := zpow_mul_pow_toNat two_ne_zero r.unit
    rw [Int.toNat_of_nonpos (by omega), pow_zero, mul_one] at hunit
    rw [Decimal.toRat, zpow_zero, mul_one, hunit, Nat.pow_eq]
    push_cast
    rfl
  · next h =>
    have hunit := zpow_mul_pow_toNat (by norm_num : (5 : ℚ) ≠ 0) r.unit
    rw [Int.toNat_of_nonpos (by omega : r.unit ≤ 0), pow_zero] at hunit
    rw [Decimal.toRat, Nat.pow_eq, show (10 : ℚ) = 2 * 5 by norm_num, mul_zpow]
    push_cast
    linear_combination r.value * 2 ^ r.unit * hunit

/-- The chosen decimal rounds to the double that it was chosen for. -/
theorem owns_shortest {r : Rounding} (hbelow : r.below < r.value) (habove : r.value < r.above) :
    r.Owns r.shortest.toRat := by
  unfold shortest
  simp only
  cases hit : (List.range 24).findSome? fun (i : Nat) =>
      (r.onGrid (r.topExponent - i)).map fun c => (⟨c, r.topExponent - i⟩ : Decimal) with
  | some d =>
    obtain ⟨i, -, hi⟩ := List.exists_of_findSome?_eq_some hit
    obtain ⟨c, hc, rfl⟩ := Option.map_eq_some_iff.1 hi
    exact owns_of_onGrid hc
  | none =>
    have hunit : (0 : ℚ) < 2 ^ r.unit := zpow_pos two_pos _
    rw [Option.getD_none, toRat_exact]
    refine owns_of_lt ?_ ?_
    · exact mul_lt_mul_of_pos_right (Nat.cast_lt.2 hbelow) hunit
    · exact mul_lt_mul_of_pos_right (Nat.cast_lt.2 habove) hunit

end Rounding

/-! ## The intervals of the doubles -/

namespace DoubleFields

/-- The place of a magnitude among all magnitudes, counted upwards from zero. -/
def index (d : DoubleFields) : ℕ := d.exponent * 2 ^ 52 + d.fraction

/-- The interval of the magnitude at a place. -/
def roundingAt (k : ℕ) : Rounding := (⟨false, k / 2 ^ 52, k % 2 ^ 52⟩ : DoubleFields).rounding

theorem rounding_eq {d : DoubleFields} (h : d.fraction < 2 ^ 52) :
    d.rounding = roundingAt d.index := by
  have hexponent : d.index / 2 ^ 52 = d.exponent := by
    unfold index
    omega
  have hfraction : d.index % 2 ^ 52 = d.fraction := by
    unfold index
    omega
  rw [roundingAt, hexponent, hfraction]
  rfl

theorem below_lt_value {d : DoubleFields} (h : d.index ≠ 0) :
    d.rounding.below < d.rounding.value := by
  unfold rounding
  simp only [Nat.pow_eq]
  unfold index at h
  split <;> split <;> omega

theorem value_lt_above (d : DoubleFields) : d.rounding.value < d.rounding.above := by
  unfold rounding
  simp only
  omega

/-- Within a power of two one interval ends where the next one begins. -/
theorem high_rounding_succ (negative : Bool) (exponent fraction : ℕ) :
    (⟨negative, exponent, fraction⟩ : DoubleFields).rounding.high =
      (⟨negative, exponent, fraction + 1⟩ : DoubleFields).rounding.low := by
  have hends : (⟨negative, exponent, fraction⟩ : DoubleFields).rounding.above =
      (⟨negative, exponent, fraction + 1⟩ : DoubleFields).rounding.below := by
    simp only [rounding, Nat.add_eq_zero_iff, one_ne_zero, and_false, false_and, if_false]
    split <;> omega
  rw [Rounding.high, Rounding.low, hends]
  rfl

/-- At a power of two the gap below is half as wide, or as wide where the subnormal numbers end. -/
theorem high_rounding_carry (negative : Bool) (exponent : ℕ) :
    (⟨negative, exponent, 2 ^ 52 - 1⟩ : DoubleFields).rounding.high =
      (⟨negative, exponent + 1, 0⟩ : DoubleFields).rounding.low := by
  rw [Rounding.high, Rounding.low]
  rcases Nat.eq_zero_or_pos exponent with rfl | hpos
  · have hends : (⟨negative, 0, 2 ^ 52 - 1⟩ : DoubleFields).rounding.above =
        (⟨negative, 0 + 1, 0⟩ : DoubleFields).rounding.below := by
      simp only [rounding, Nat.pow_eq, if_true]
      rw [if_neg (by omega), if_neg (by omega)]
      omega
    rw [hends]
    rfl
  · have hunit : (⟨negative, exponent + 1, 0⟩ : DoubleFields).rounding.unit =
        (⟨negative, exponent, 2 ^ 52 - 1⟩ : DoubleFields).rounding.unit + 1 := by
      simp only [rounding]
      omega
    have hends : (⟨negative, exponent, 2 ^ 52 - 1⟩ : DoubleFields).rounding.above =
        (⟨negative, exponent + 1, 0⟩ : DoubleFields).rounding.below * 2 := by
      simp only [rounding, Nat.pow_eq, true_and]
      rw [if_neg (by omega), if_neg (by omega), if_pos (by omega)]
      omega
    rw [hunit, hends, zpow_add_one₀ two_ne_zero]
    push_cast
    ring

/-- Each interval ends where the next one begins. -/
theorem high_roundingAt (k : ℕ) : (roundingAt k).high = (roundingAt (k + 1)).low := by
  unfold roundingAt
  rcases Nat.lt_or_ge (k % 2 ^ 52 + 1) (2 ^ 52) with hlt | hge
  · rw [show (k + 1) / 2 ^ 52 = k / 2 ^ 52 by omega,
      show (k + 1) % 2 ^ 52 = k % 2 ^ 52 + 1 by omega]
    exact high_rounding_succ _ _ _
  · rw [show (k + 1) / 2 ^ 52 = k / 2 ^ 52 + 1 by omega, show (k + 1) % 2 ^ 52 = 0 by omega,
      show k % 2 ^ 52 = 2 ^ 52 - 1 by omega]
    exact high_rounding_carry _ _

theorem low_lt_high_roundingAt (k : ℕ) : (roundingAt k).low < (roundingAt k).high := by
  have hunit : (0 : ℚ) < 2 ^ (roundingAt k).unit := zpow_pos two_pos _
  refine mul_lt_mul_of_pos_right (Nat.cast_lt.2 ?_) hunit
  unfold roundingAt rounding
  simp only
  omega

theorem strictMono_low : StrictMono fun k => (roundingAt k).low :=
  strictMono_nat_of_lt_succ fun k => high_roundingAt k ▸ low_lt_high_roundingAt k

/-- The ends of every other interval belong to it. -/
theorem closed_roundingAt (k : ℕ) : (roundingAt k).closed = (k % 2 == 0) := by
  unfold roundingAt rounding
  simp only [Nat.pow_eq]
  congr 1
  split <;> omega

/-- No number rounds to two magnitudes. -/
theorem index_eq_of_owns {k l : ℕ} {x : ℚ} (hk : (roundingAt k).Owns x)
    (hl : (roundingAt l).Owns x) : k = l := by
  suffices ∀ {k l : ℕ}, (roundingAt k).Owns x → (roundingAt l).Owns x → ¬ k < l from
    Nat.le_antisymm (Nat.not_lt.1 (this hl hk)) (Nat.not_lt.1 (this hk hl))
  intro k l hk hl hlt
  have hsucc : (roundingAt (k + 1)).low ≤ (roundingAt l).low := strictMono_low.monotone hlt
  have hx : x = (roundingAt k).high :=
    le_antisymm hk.bounds.2 (high_roundingAt k ▸ hsucc.trans hl.bounds.1)
  have hx' : x = (roundingAt l).low :=
    le_antisymm (hx.le.trans (high_roundingAt k ▸ hsucc)) hl.bounds.1
  obtain rfl : k + 1 = l :=
    strictMono_low.injective ((high_roundingAt k).symm.trans (hx.symm.trans hx'))
  -- Both would have to contain the point at which they meet.
  have hclosed : (roundingAt k).closed = true := by
    by_contra hopen
    rw [Rounding.Owns, if_neg hopen, hx] at hk
    exact lt_irrefl _ hk.2
  have hclosed' : (roundingAt (k + 1)).closed = true := by
    by_contra hopen
    rw [Rounding.Owns, if_neg hopen, hx'] at hl
    exact lt_irrefl _ hl.1
  rw [closed_roundingAt, beq_iff_eq] at hclosed hclosed'
  omega

end DoubleFields

end Scoping

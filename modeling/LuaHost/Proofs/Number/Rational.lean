import LuaHost.Proofs.Number.Exact
import Mathlib.Algebra.Order.Field.Power
import Mathlib.Algebra.Order.Ring.Rat
import Mathlib.Data.Int.Cast.Lemmas

/-!
# LuaHost.Proofs.Number.Rational

The exact value of a finite double as a rational number.

* `Double.toRat?`: sign, significand and power of two multiplied out.
* `Double.integer?_eq_some_iff`, `Double.int64?_eq_some_iff`: a double is found to be an integer exactly
  when its value is that integer.
* `Double.equals_iff_toRat?`: finite doubles are equal numbers exactly when their values are equal.
-/

namespace LuaHost
namespace Double

def sign (x : Double) : ℚ := if x.negative then -1 else 1

theorem abs_sign (x : Double) : |x.sign| = 1 := by
  rw [sign]
  split
  · rw [abs_neg, abs_one]
  · exact abs_one

theorem sign_mul_natAbs {x : Double} {n : Int}
    (h : n = if x.negative then -(n.natAbs : Int) else n.natAbs) : x.sign * n.natAbs = n := by
  rw [sign]
  split at h
  · rename_i hneg
    rw [if_pos hneg, neg_one_mul, ← Int.cast_natCast, ← Int.cast_neg, ← h]
  · rename_i hpos
    rw [if_neg hpos, one_mul, ← Int.cast_natCast, ← h]

/-- The value of a finite double; none for the infinities and the NaNs. -/
def toRat? (x : Double) : Option ℚ :=
  if x.isFinite then some (x.sign * x.significand * 2 ^ x.scale) else none

/-! ## Counting in units -/

theorem two_zpow_scale (x : Double) :
    (2 : ℚ) ^ x.scale = 2 ^ (max x.exponentField 1 - 1) / 2 ^ unitPlaces := by
  have hscale : x.scale = ((max x.exponentField 1 - 1 : ℕ) : ℤ) - (unitPlaces : ℤ) := by
    unfold scale unitPlaces
    omega
  rw [hscale, zpow_sub₀ two_ne_zero, zpow_natCast, zpow_natCast]

theorem toRat?_of_isFinite {x : Double} (h : x.isFinite = true) :
    x.toRat? = some (x.sign * x.units / unitsInOne) := by
  rw [toRat?, if_pos h, two_zpow_scale, units, unitsInOne]
  simp only [Nat.pow_eq]
  push_cast
  rw [mul_div_assoc', mul_assoc]

theorem unitsInOne_ne_zero : (unitsInOne : ℚ) ≠ 0 :=
  Nat.cast_ne_zero.2 (Nat.two_pow_pos unitPlaces).ne'

theorem toRat?_eq_units {x : Double} {q : ℚ} (h : x.toRat? = some q) :
    x.isFinite = true ∧ q * unitsInOne = x.sign * x.units := by
  have hfinite : x.isFinite = true := by
    by_contra hinfinite
    rw [toRat?, if_neg hinfinite] at h
    cases h
  refine ⟨hfinite, ?_⟩
  rw [toRat?_of_isFinite hfinite] at h
  rw [← Option.some.inj h, div_mul_cancel₀ _ unitsInOne_ne_zero]

/-! ## Integers -/

/-- Whole units of one leave nothing behind the point of the significand. -/
theorem exists_integer?_of_units {x : Double} (hfinite : x.isFinite = true) {m : Nat}
    (h : x.units = m * unitsInOne) : ∃ n, x.integer? = some n := by
  have hmod : x.significand % Nat.pow 2 (-x.scale).toNat = 0 := by
    have hplace : (-x.scale).toNat = unitPlaces - (max x.exponentField 1 - 1) := by
      unfold scale unitPlaces
      omega
    rw [units, unitsInOne, Nat.pow_eq, Nat.pow_eq] at h
    rw [hplace, Nat.pow_eq]
    by_cases hle : max x.exponentField 1 - 1 ≤ unitPlaces
    · rw [← Nat.sub_add_cancel hle, pow_add, ← mul_assoc] at h
      rw [Nat.mul_right_cancel (Nat.two_pow_pos _) h, Nat.mul_mod_left]
    · rw [Nat.sub_eq_zero_of_le (Nat.le_of_not_le hle), pow_zero, Nat.mod_one]
  refine ⟨_, if_pos ?_⟩
  rw [hfinite, hmod]
  rfl

theorem toRat?_of_integer? {x : Double} {n : Int} (h : x.integer? = some n) :
    x.toRat? = some (n : ℚ) := by
  obtain ⟨hfinite, hsign, hunits⟩ := integer?_eq_some h
  rw [toRat?_of_isFinite hfinite, ← hunits, Nat.cast_mul, ← mul_assoc,
    mul_div_cancel_right₀ _ unitsInOne_ne_zero, sign_mul_natAbs hsign]

/-- **The integer that a double is.** -/
theorem integer?_eq_some_iff {x : Double} {n : Int} :
    x.integer? = some n ↔ x.toRat? = some (n : ℚ) := by
  refine ⟨toRat?_of_integer?, fun h => ?_⟩
  obtain ⟨hfinite, hunits⟩ := toRat?_eq_units h
  have habs : x.units = n.natAbs * unitsInOne := by
    have hcast : (x.units : ℚ) = |(n : ℚ)| * unitsInOne := by
      rw [← Nat.abs_cast unitsInOne, ← abs_mul, hunits, abs_mul, abs_sign, one_mul, Nat.abs_cast]
    rw [← Int.cast_abs, ← Nat.cast_natAbs] at hcast
    exact_mod_cast hcast
  obtain ⟨m, hm⟩ := exists_integer?_of_units hfinite habs
  have hvalue := (toRat?_of_integer? hm).symm.trans h
  rw [hm, Int.cast_injective (Option.some.inj hvalue)]

/-- The 64-bit integer that a double is, up to both ends of their range. -/
theorem int64?_eq_some_iff {x : Double} {i : Int64} :
    x.int64? = some i ↔ x.toRat? = some (i.toInt : ℚ) := by
  rw [← integer?_eq_some_iff]
  refine ⟨int64?_eq_some, fun h => ?_⟩
  have hrange : -Int.pow 2 63 ≤ i.toInt ∧ i.toInt < Int.pow 2 63 := ⟨i.le_toInt, i.toInt_lt⟩
  rw [int64?, h]
  simp only [if_pos hrange, Int64.ofInt_toInt]

/-! ## Equal numbers -/

theorem toRat?_of_isZero {x : Double} (h : x.isZero = true) : x.toRat? = some 0 := by
  rw [toRat?_of_integer? (integer?_of_isZero h), Int.cast_zero]

theorem isZero_of_units_eq_zero {x : Double} (h : x.units = 0) : x.isZero = true := by
  rw [isZero, units_eq_zero_iff.1 h]
  rfl

theorem negative_eq_of_sign_eq {x y : Double} (h : x.sign = y.sign) : x.negative = y.negative := by
  have hone : (-1 : ℚ) ≠ 1 := by decide
  cases hx : x.negative with
  | false => cases hy : y.negative with
    | false => rfl
    | true =>
      rw [sign, sign, hx, hy] at h
      exact absurd h.symm hone
  | true => cases hy : y.negative with
    | true => rfl
    | false =>
      rw [sign, sign, hx, hy] at h
      exact absurd h hone

/-- Equality compares values: the two zeros are one number, and no other number has two doubles. -/
theorem equals_iff_toRat? {x y : Double} (hx : x.isFinite = true) (hy : y.isFinite = true) :
    x.equals y = true ↔ x.toRat? = y.toRat? := by
  constructor
  · intro h
    rcases (equals_iff.1 h).2.2 with rfl | ⟨hzx, hzy⟩
    · rfl
    · rw [toRat?_of_isZero hzx, toRat?_of_isZero hzy]
  · intro h
    rw [toRat?_of_isFinite hy] at h
    obtain ⟨_, hunits⟩ := toRat?_eq_units h
    rw [div_mul_cancel₀ _ unitsInOne_ne_zero] at hunits
    have hsame : x.units = y.units := by
      have habs := congrArg abs hunits
      rw [abs_mul, abs_mul, abs_sign, abs_sign, one_mul, one_mul, Nat.abs_cast, Nat.abs_cast] at habs
      exact Nat.cast_injective habs.symm
    refine equals_iff.2 ⟨isNaN_of_isFinite hx, isNaN_of_isFinite hy, ?_⟩
    by_cases hzero : x.units = 0
    · exact .inr ⟨isZero_of_units_eq_zero hzero, isZero_of_units_eq_zero (hsame ▸ hzero)⟩
    · left
      rw [hsame] at hunits
      have hcast : (y.units : ℚ) ≠ 0 := Nat.cast_ne_zero.2 (hsame ▸ hzero)
      have hneg := negative_eq_of_sign_eq (mul_right_cancel₀ hcast hunits)
      exact ext_of_negative_magnitude hneg.symm (magnitude_eq_of_units_eq hsame)

end Double
end LuaHost

import LuaHost.Proofs.Number.Rational
import Mathlib.Algebra.Order.Ring.Rat

/-!
# LuaHost.Proofs.Number.Interval

The numbers that round to a double, counted in quarters of the least positive double.

* `Double.Rounds`: a number is in the interval around the absolute value of a double. An end belongs to
  it where the significand is even.
* `Double.endsBefore`: the intervals of different magnitudes meet at an end at most, and then the end
  belongs to one of them.
* `Double.magnitude_eq_of_rounds`: so a number rounds to one magnitude.
-/

namespace LuaHost
namespace Double

/-- The units in one step of the significand. -/
def stepUnits (x : Double) : Nat := Nat.pow 2 (max x.exponentField 1 - 1)

theorem stepUnits_pos (x : Double) : 0 < x.stepUnits := Nat.two_pow_pos _

theorem unitsInOne_pos : (0 : ℚ) < unitsInOne := Nat.cast_pos.2 (Nat.two_pow_pos unitPlaces)

/-- The quarters of a step down to the end of the interval; a power of two has a nearer neighbour. -/
def quartersBelow (x : Double) : Nat := if x.fraction = 0 ∧ 1 < x.exponentField then 1 else 2

def lowQuarters (x : Double) : Nat := (4 * x.significand - x.quartersBelow) * x.stepUnits

def highQuarters (x : Double) : Nat := (4 * x.significand + 2) * x.stepUnits

theorem units_eq_of_magnitude_eq {x y : Double} (h : x.magnitude = y.magnitude) :
    x.units = y.units := by
  have hexponent : x.exponentField = y.exponentField := congrArg (· / Nat.pow 2 52) h
  have hfraction : x.fraction = y.fraction := congrArg (· % Nat.pow 2 52) h
  unfold units significand
  split
  · rw [if_pos (by omega), hexponent, hfraction]
  · rw [if_neg (by omega), hexponent, hfraction]

theorem units_lt_high (x : Double) : 4 * x.units < x.highQuarters := by
  have hstep := x.stepUnits_pos
  have hunits : x.units = x.significand * x.stepUnits := rfl
  rw [hunits, highQuarters, Nat.add_mul, Nat.mul_assoc]
  omega

/-- The number rounds to the absolute value of the double, ties going to even significands. -/
structure Rounds (x : Double) (q : ℚ) : Prop where
  low_le : (x.lowQuarters : ℚ) ≤ q * (4 * unitsInOne)
  le_high : q * (4 * unitsInOne) ≤ x.highQuarters
  even_of_end : q * (4 * unitsInOne) = x.lowQuarters ∨ q * (4 * unitsInOne) = x.highQuarters →
    x.significand % 2 = 0

theorem significand_lt (x : Double) : x.significand < Nat.pow 2 53 := by
  have hfraction := x.fraction_lt
  unfold significand
  simp only [Nat.pow_eq] at hfraction ⊢
  split <;> omega

/-- A normal significand has its leading bit. -/
theorem le_significand {x : Double} (h : 1 < x.exponentField) : Nat.pow 2 52 ≤ x.significand := by
  rw [significand, if_neg (by omega)]
  exact Nat.le_add_right _ _

theorem quartersBelow_le (x : Double) : x.quartersBelow ≤ 2 := by
  unfold quartersBelow
  split <;> omega

theorem quartersBelow_cases {x : Double} (h : 1 < x.exponentField) :
    (x.quartersBelow = 1 ∧ x.significand = Nat.pow 2 52) ∨
      (x.quartersBelow = 2 ∧ Nat.pow 2 52 < x.significand) := by
  have hsignificand : x.significand = Nat.pow 2 52 + x.fraction := if_neg (by omega)
  rw [hsignificand]
  by_cases hzero : x.fraction = 0
  · exact .inl ⟨if_pos ⟨hzero, h⟩, by rw [hzero, Nat.add_zero]⟩
  · exact .inr ⟨if_neg fun hpower => hzero hpower.1, by omega⟩

theorem quartersBelow_pos (x : Double) : 0 < x.quartersBelow := by
  unfold quartersBelow
  split <;> omega

theorem low_lt_units {x : Double} (h : x.significand ≠ 0) : x.lowQuarters < 4 * x.units := by
  have hbelow := x.quartersBelow_pos
  have hunits : x.units = x.significand * x.stepUnits := rfl
  rw [hunits, lowQuarters, ← Nat.mul_assoc]
  exact Nat.mul_lt_mul_of_pos_right (by omega) x.stepUnits_pos

/-- One step of a greater exponent is at least two steps. -/
theorem exists_stepUnits_eq {x y : Double} (h : max x.exponentField 1 < max y.exponentField 1) :
    ∃ k, y.stepUnits = 2 * Nat.pow 2 k * x.stepUnits := by
  refine ⟨max y.exponentField 1 - max x.exponentField 1 - 1, ?_⟩
  simp only [stepUnits, Nat.pow_eq]
  rw [← Nat.pow_succ', ← Nat.pow_add]
  congr 1
  omega

/-- The interval of the first double ends below that of the second one, or where it begins; then only
one of the two contains its end. -/
def EndsBefore (x y : Double) : Prop :=
  x.highQuarters ≤ y.lowQuarters ∧
    (x.highQuarters = y.lowQuarters → x.significand % 2 ≠ y.significand % 2)

/-- The significands are at least one step apart. -/
theorem endsBefore_of_eq_exponent {x y : Double} (h : x.magnitude < y.magnitude)
    (hsame : max x.exponentField 1 = max y.exponentField 1) : x.EndsBefore y := by
  have hstep : y.stepUnits = x.stepUnits := by simp only [stepUnits, hsame]
  have hlt : x.significand < y.significand := by
    have hunits : x.significand * x.stepUnits < y.significand * y.stepUnits := units_lt_units h
    rw [hstep] at hunits
    exact Nat.lt_of_mul_lt_mul_right hunits
  have hbelow := y.quartersBelow_le
  unfold EndsBefore highQuarters lowQuarters
  rw [hstep]
  refine ⟨Nat.mul_le_mul_right _ (by omega), fun heq => ?_⟩
  have hends := Nat.eq_of_mul_eq_mul_right x.stepUnits_pos heq
  omega

/-- The greatest significand is met by the least one of a greater exponent. -/
theorem endsBefore_of_lt_exponent {x y : Double}
    (h : max x.exponentField 1 < max y.exponentField 1) : x.EndsBefore y := by
  obtain ⟨k, hstep⟩ := exists_stepUnits_eq h
  have hnormal : 1 < y.exponentField := by omega
  have hsx := x.significand_lt
  have hsy := le_significand hnormal
  have hcases := quartersBelow_cases hnormal
  have hpower : 2 * (4 * y.significand - y.quartersBelow) ≤
      (4 * y.significand - y.quartersBelow) * (2 * Nat.pow 2 k) := by
    rw [Nat.mul_comm 2]
    exact Nat.mul_le_mul_left _ (Nat.le_mul_of_pos_right 2 (Nat.two_pow_pos k))
  have hgap : 4 * x.significand + 2 ≤ 2 * (4 * y.significand - y.quartersBelow) := by
    simp only [Nat.pow_eq] at hsx hcases
    omega
  unfold EndsBefore highQuarters lowQuarters
  rw [hstep, ← Nat.mul_assoc]
  refine ⟨Nat.mul_le_mul_right _ (Nat.le_trans hgap hpower), fun heq => ?_⟩
  have hends := Nat.eq_of_mul_eq_mul_right x.stepUnits_pos heq
  -- then both significands are as near as they can be
  have htight : 4 * x.significand + 2 = 2 * (4 * y.significand - y.quartersBelow) :=
    Nat.le_antisymm hgap (hends ▸ hpower)
  simp only [Nat.pow_eq] at hsx hcases
  omega

theorem endsBefore {x y : Double} (h : x.magnitude < y.magnitude) : x.EndsBefore y := by
  have hle : x.exponentField ≤ y.exponentField := Nat.div_le_div_right (Nat.le_of_lt h)
  by_cases hsame : max x.exponentField 1 = max y.exponentField 1
  · exact endsBefore_of_eq_exponent h hsame
  · exact endsBefore_of_lt_exponent (by omega)

/-- **A number rounds to one magnitude.** -/
theorem magnitude_eq_of_rounds {x y : Double} {q : ℚ} (hx : x.Rounds q) (hy : y.Rounds q) :
    x.magnitude = y.magnitude := by
  have hnot {x y : Double} (hx : x.Rounds q) (hy : y.Rounds q) : ¬ x.magnitude < y.magnitude := by
    intro hlt
    obtain ⟨hle, hparity⟩ := endsBefore hlt
    have hle : (x.highQuarters : ℚ) ≤ y.lowQuarters := Nat.cast_le.2 hle
    have hhigh : q * (4 * unitsInOne) = x.highQuarters :=
      le_antisymm hx.le_high (hle.trans hy.low_le)
    have hlow : q * (4 * unitsInOne) = y.lowQuarters :=
      le_antisymm (hx.le_high.trans hle) hy.low_le
    have hmeet : x.highQuarters = y.lowQuarters := Nat.cast_injective (hhigh.symm.trans hlow)
    have hevenx := hx.even_of_end (.inr hhigh)
    have heveny := hy.even_of_end (.inl hlow)
    exact hparity hmeet (hevenx.trans heveny.symm)
  exact Nat.le_antisymm (Nat.le_of_not_lt (hnot hy hx)) (Nat.le_of_not_lt (hnot hx hy))

end Double
end LuaHost

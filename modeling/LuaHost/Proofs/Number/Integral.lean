import LuaHost.Proofs.Number.Interval
import Mathlib.Tactic.Ring

/-!
# LuaHost.Proofs.Number.Integral

Integers in the intervals of doubles.

* `Double.exists_integer?_of_rounds`: an integer rounds to doubles that are integers.
* `Double.pow_lt_of_rounds`, `Double.lt_pow_of_rounds`: what rounds to a double past `2 ^ 63` is past it,
  and what rounds to one before it is before it.
* `Double.eq_firstBeyond_of_rounds`: of the doubles that are no 64-bit integer, those integers can round
  to one only.
-/

namespace LuaHost
namespace Double

/-- The interval of a double that is no integer is too narrow for integers. -/
theorem exists_integer?_of_rounds {x : Double} (hfinite : x.isFinite = true) {n : Nat}
    (h : x.Rounds n) : ∃ k, x.integer? = some k := by
  have hlow : x.lowQuarters ≤ n * (4 * unitsInOne) := by exact_mod_cast h.low_le
  have hhigh : n * (4 * unitsInOne) ≤ x.highQuarters := by exact_mod_cast h.le_high
  unfold lowQuarters at hlow
  unfold highQuarters at hhigh
  rcases Nat.le_total (max x.exponentField 1 - 1) unitPlaces with hle | hge
  · have hone : unitsInOne = Nat.pow 2 (unitPlaces - (max x.exponentField 1 - 1)) * x.stepUnits := by
      simp only [unitsInOne, stepUnits, Nat.pow_eq, ← Nat.pow_add]
      congr 1
      omega
    have hbelow := x.quartersBelow_le
    generalize Nat.pow 2 (unitPlaces - (max x.exponentField 1 - 1)) = parts at hone
    have hquarters : n * (4 * unitsInOne) = 4 * (n * parts) * x.stepUnits := by
      rw [hone]
      ring
    rw [hquarters] at hlow hhigh
    have hlow := Nat.le_of_mul_le_mul_right hlow x.stepUnits_pos
    have hhigh := Nat.le_of_mul_le_mul_right hhigh x.stepUnits_pos
    have hsignificand : x.significand = n * parts := by omega
    apply exists_integer?_of_units hfinite (m := n)
    rw [hone, ← Nat.mul_assoc, ← hsignificand]
    rfl
  · have hstep : x.stepUnits = Nat.pow 2 (max x.exponentField 1 - 1 - unitPlaces) * unitsInOne := by
      simp only [unitsInOne, stepUnits, Nat.pow_eq, ← Nat.pow_add]
      congr 1
      omega
    have hunits : x.units = x.significand * x.stepUnits := rfl
    rw [hstep, ← Nat.mul_assoc] at hunits
    exact exists_integer?_of_units hfinite hunits

/-! ## Past the 64-bit integers -/

/-- `2 ^ 63`, the least double that is past all 64-bit integers. -/
def firstBeyond : Double := ⟨0x43E0000000000000⟩

theorem units_firstBeyond : firstBeyond.units = Nat.pow 2 63 * unitsInOne := by
  have hinteger : firstBeyond.integer? = some 9223372036854775808 := by decide
  exact (integer?_eq_some hinteger).2.2.symm

/-- The two doubles at that distance from zero. -/
theorem eq_of_magnitude_firstBeyond {x : Double} (h : x.magnitude = firstBeyond.magnitude) :
    x = firstBeyond ∨ x = ⟨0xC3E0000000000000⟩ := by
  cases hnegative : x.negative with
  | false => exact .inl (ext_of_negative_magnitude (hnegative.trans (by decide)) h)
  | true => exact .inr (ext_of_negative_magnitude (hnegative.trans (by decide)) (h.trans (by decide)))

theorem pow_lt_of_rounds {x : Double} {n : Nat} (hlarge : firstBeyond.magnitude < x.magnitude)
    (h : x.Rounds n) : Nat.pow 2 63 < n := by
  have hlow : x.lowQuarters ≤ n * (4 * unitsInOne) := by exact_mod_cast h.low_le
  have hmeet := (endsBefore hlarge).1
  have hunits := firstBeyond.units_lt_high
  rw [units_firstBeyond, Nat.mul_left_comm] at hunits
  have hall := Nat.lt_of_lt_of_le hunits (Nat.le_trans hmeet hlow)
  exact Nat.lt_of_mul_lt_mul_right hall

/-- What rounds to a smaller double is not past the doubles before `2 ^ 63`, nor `2 ^ 63` itself. -/
theorem lt_pow_of_rounds {x : Double} {n : Nat} (hsmall : x.magnitude < firstBeyond.magnitude)
    (h : x.Rounds n) : n < Nat.pow 2 63 := by
  have hhigh : n * (4 * unitsInOne) ≤ x.highQuarters := by exact_mod_cast h.le_high
  have hmeet := (endsBefore hsmall).1
  have hbelow := low_lt_units (x := firstBeyond) (by decide)
  rw [units_firstBeyond, Nat.mul_left_comm] at hbelow
  have hall := Nat.lt_of_le_of_lt (Nat.le_trans hhigh hmeet) hbelow
  exact Nat.lt_of_mul_lt_mul_right hall

theorem magnitude_lt_firstBeyond {x : Double} {k : Int} (hk : x.integer? = some k)
    (hsmall : k.natAbs < Nat.pow 2 63) : x.magnitude < firstBeyond.magnitude := by
  have hunits := (integer?_eq_some hk).2.2
  have hbeyond := units_firstBeyond
  rcases Nat.lt_trichotomy x.magnitude firstBeyond.magnitude with hlt | heq | hgt
  · exact hlt
  · have hsame := units_eq_of_magnitude_eq heq
    rw [← hunits, hbeyond] at hsame
    exact absurd (Nat.eq_of_mul_eq_mul_right (Nat.two_pow_pos _) hsame) (Nat.ne_of_lt hsmall)
  · have hmore := units_lt_units hgt
    rw [← hunits, hbeyond] at hmore
    exact absurd (Nat.lt_of_mul_lt_mul_right hmore) (Nat.not_lt.2 (Nat.le_of_lt hsmall))

theorem magnitude_firstBeyond_le {x : Double} {k : Int} (hk : x.integer? = some k)
    (hlarge : Nat.pow 2 63 ≤ k.natAbs) : firstBeyond.magnitude ≤ x.magnitude := by
  apply Nat.le_of_not_lt
  intro hlt
  have hunits := units_lt_units hlt
  rw [units_firstBeyond, ← (integer?_eq_some hk).2.2] at hunits
  exact Nat.not_lt.2 hlarge (Nat.lt_of_mul_lt_mul_right hunits)

theorem eq_firstBeyond_of_rounds {x : Double} (hfinite : x.isFinite = true) (hx : x.int64? = none)
    {i : Int64} (h : x.Rounds i.toInt.natAbs) : x = firstBeyond := by
  obtain ⟨k, hk⟩ := exists_integer?_of_rounds hfinite h
  have hrange : ¬ (-Int.pow 2 63 ≤ k ∧ k < Int.pow 2 63) := by
    intro hin
    simp only [int64?, hk, if_pos hin] at hx
    cases hx
  have hpow : Int.pow 2 63 = (Nat.pow 2 63 : Nat) := rfl
  have hi : -Int.pow 2 63 ≤ i.toInt ∧ i.toInt < Int.pow 2 63 := ⟨i.le_toInt, i.toInt_lt⟩
  have hle := magnitude_firstBeyond_le hk (by omega)
  have hmagnitude : x.magnitude = firstBeyond.magnitude := by
    refine Nat.le_antisymm (Nat.le_of_not_lt fun hlt => ?_) hle
    have hbeyond := pow_lt_of_rounds hlt h
    omega
  rcases eq_of_magnitude_firstBeyond hmagnitude with heq | rfl
  · exact heq
  · -- the negative double of that magnitude is still a 64-bit integer
    exact absurd hx (by decide)

end Double
end LuaHost

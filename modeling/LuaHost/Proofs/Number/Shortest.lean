import LuaHost.Number.Shortest
import LuaHost.Proofs.Number.Interval
import Mathlib.Tactic.LinearCombination
import Mathlib.Tactic.Positivity

/-!
# LuaHost.Proofs.Number.Shortest

The shortest decimal of a double rounds to it.

* `RoundingInterval.inside_of_candidate?`: what is found on a decimal grid is in the interval.
* `RoundingInterval.exists_candidate?`: on a grid that is finer than the interval something is found.
* `Double.exists_shortest`: seventeen digits suffice, and the decimal that is found rounds to the double.
* `Double.exists_shortest_natural`: of an integer from `10 ^ 16` on it is an integer again.
-/

namespace LuaHost
namespace RoundingInterval

/-! ## Grids -/

/-- The denominator on the grid of the multiples of `10 ^ place`, where that is not below one. -/
def gridUnit (i : RoundingInterval) (place : Int) : Nat := i.unit * Nat.pow 10 place.toNat

/-- What numerators are multiplied by on finer grids. -/
def gridFactor (place : Int) : Nat := Nat.pow 10 (-place).toNat

/-- The multiple of `10 ^ place` is in the interval. -/
structure Inside (i : RoundingInterval) (place : Int) (c : Nat) : Prop where
  low_le : i.low * gridFactor place ≤ c * i.gridUnit place
  le_high : c * i.gridUnit place ≤ i.high * gridFactor place
  closed_of_end : c * i.gridUnit place = i.low * gridFactor place ∨
    c * i.gridUnit place = i.high * gridFactor place → i.closed = true

variable {i : RoundingInterval} {place : Int} {c : Nat}

theorem inside_iff : (if i.closed then
    decide (i.low * gridFactor place ≤ c * i.gridUnit place) &&
      decide (c * i.gridUnit place ≤ i.high * gridFactor place)
    else
    decide (i.low * gridFactor place < c * i.gridUnit place) &&
      decide (c * i.gridUnit place < i.high * gridFactor place)) = true ↔ i.Inside place c := by
  cases hclosed : i.closed with
  | true =>
    rw [if_pos rfl, Bool.and_eq_true, decide_eq_true_eq, decide_eq_true_eq]
    exact ⟨fun h => ⟨h.1, h.2, fun _ => hclosed⟩, fun h => ⟨h.low_le, h.le_high⟩⟩
  | false =>
    rw [if_neg Bool.false_ne_true, Bool.and_eq_true, decide_eq_true_eq, decide_eq_true_eq]
    constructor
    · intro h
      refine ⟨Nat.le_of_lt h.1, Nat.le_of_lt h.2, ?_⟩
      rintro (heq | heq)
      · exact absurd heq.symm (Nat.ne_of_lt h.1)
      · exact absurd heq (Nat.ne_of_lt h.2)
    · intro h
      have hends := mt h.closed_of_end (Bool.eq_false_iff.1 hclosed)
      rw [not_or] at hends
      exact ⟨Nat.lt_of_le_of_ne h.low_le (Ne.symm hends.1), Nat.lt_of_le_of_ne h.le_high hends.2⟩

/-- The neighbour of the value that is not above it. -/
def gridFloor (i : RoundingInterval) (place : Int) : Nat :=
  i.value * gridFactor place / i.gridUnit place

theorem inside_of_candidate? {tie : Tie} (h : i.candidate? tie place = some c) : i.Inside place c := by
  simp only [candidate?] at h
  split at h
  · cases h
  · rename_i hlower _
    cases h
    exact inside_iff.1 hlower
  · rename_i _ hupper
    cases h
    exact inside_iff.1 hupper
  · rename_i hlower hupper
    have hboth : i.gridFloor place = c ∨ i.gridFloor place + 1 = c := by
      split at h
      · exact .inl (Option.some.inj h)
      · split at h
        · exact .inr (Option.some.inj h)
        · split at h
          · exact .inr (Option.some.inj h)
          · split at h
            · exact .inl (Option.some.inj h)
            · exact .inr (Option.some.inj h)
    rcases hboth with rfl | rfl
    · exact inside_iff.1 hlower
    · exact inside_iff.1 hupper

theorem not_inside_of_candidate? {tie : Tie} (h : i.candidate? tie place = none) :
    ¬ i.Inside place (i.gridFloor place) ∧ ¬ i.Inside place (i.gridFloor place + 1) := by
  simp only [candidate?] at h
  split at h
  · rename_i hlower hupper
    exact ⟨fun hin => Bool.eq_false_iff.1 hlower (inside_iff.2 hin),
      fun hin => Bool.eq_false_iff.1 hupper (inside_iff.2 hin)⟩
  · cases h
  · cases h
  · split at h
    · cases h
    · split at h
      · cases h
      · split at h
        · cases h
        · split at h
          · cases h
          · cases h

/-- The neighbours of the value are both outside only if the interval is not wider than the grid. -/
theorem exists_candidate? (tie : Tie) (hunit : 0 < i.gridUnit place)
    (hlow : i.low ≤ i.value) (hhigh : i.value < i.high)
    (hwide : i.gridUnit place < (i.high - i.low) * gridFactor place) :
    ∃ c, i.candidate? tie place = some c := by
  cases hfound : i.candidate? tie place with
  | some c => exact ⟨c, rfl⟩
  | none =>
    obtain ⟨hlower, hupper⟩ := not_inside_of_candidate? hfound
    have hfloor : i.gridFloor place * i.gridUnit place ≤ i.value * gridFactor place :=
      Nat.div_mul_le_self _ _
    have hceil : i.value * gridFactor place < (i.gridFloor place + 1) * i.gridUnit place := by
      rw [Nat.mul_comm _ (i.gridUnit place)]
      exact Nat.lt_mul_div_succ _ hunit
    have hfactor : 0 < gridFactor place := Nat.pow_pos (by decide)
    have hbelow : i.low * gridFactor place ≤ i.value * gridFactor place :=
      Nat.mul_le_mul_right _ hlow
    have habove : i.value * gridFactor place < i.high * gridFactor place :=
      Nat.mul_lt_mul_of_pos_right hhigh hfactor
    -- a neighbour that is strictly between the ends is inside
    have hlower' : i.gridFloor place * i.gridUnit place ≤ i.low * gridFactor place := by
      apply Nat.le_of_not_lt
      intro hlt
      exact hlower ⟨by omega, by omega, by omega⟩
    have hupper' : i.high * gridFactor place ≤ (i.gridFloor place + 1) * i.gridUnit place := by
      apply Nat.le_of_not_lt
      intro hlt
      exact hupper ⟨by omega, by omega, by omega⟩
    rw [Nat.add_mul, Nat.one_mul] at hupper'
    rw [Nat.sub_mul] at hwide
    omega

/-! ## The leading place -/

theorem length_toDigits_pos (n : Nat) : 0 < (Nat.toDigits 10 n).length :=
  List.length_pos_iff.2 Nat.toDigits_ne_nil

theorem lt_pow_length (n : Nat) : n < Nat.pow 10 (Nat.toDigits 10 n).length :=
  (Nat.length_toDigits_le_iff (by decide) (length_toDigits_pos n)).1 (Nat.le_refl _)

theorem pow_length_le {n : Nat} (h : n ≠ 0) : Nat.pow 10 ((Nat.toDigits 10 n).length - 1) ≤ n := by
  rcases Nat.eq_or_lt_of_le (length_toDigits_pos n) with hone | hmore
  · rw [← hone]
    exact Nat.pos_of_ne_zero h
  · have hlength := Nat.length_toDigits_le_iff (n := n) (b := 10)
      (k := (Nat.toDigits 10 n).length - 1) (by decide) (by omega)
    apply Nat.le_of_not_lt
    intro hlt
    have hle := hlength.2 hlt
    omega

/-- The value is not below the leading power of ten. -/
theorem leadingPlace_le (i : RoundingInterval) (hvalue : i.value ≠ 0) :
    i.gridUnit i.leadingPlace ≤ i.value * gridFactor i.leadingPlace := by
  simp only [leadingPlace]
  split
  · rename_i hguess
    exact hguess
  · have hunit := lt_pow_length i.unit
    have hlow := pow_length_le hvalue
    have hpos := length_toDigits_pos i.value
    generalize (Nat.toDigits 10 i.value).length = lv at hlow hpos
    generalize (Nat.toDigits 10 i.unit).length = lu at hunit
    have hpow : Nat.pow 10 lu * Nat.pow 10 ((lv : Int) - lu - 1).toNat =
        Nat.pow 10 (lv - 1) * Nat.pow 10 (-((lv : Int) - lu - 1)).toNat := by
      simp only [Nat.pow_eq, ← Nat.pow_add]
      congr 1
      omega
    calc i.unit * Nat.pow 10 ((lv : Int) - lu - 1).toNat
        ≤ Nat.pow 10 lu * Nat.pow 10 ((lv : Int) - lu - 1).toNat :=
          Nat.mul_le_mul_right _ (Nat.le_of_lt hunit)
      _ = Nat.pow 10 (lv - 1) * Nat.pow 10 (-((lv : Int) - lu - 1)).toNat := hpow
      _ ≤ i.value * Nat.pow 10 (-((lv : Int) - lu - 1)).toNat := Nat.mul_le_mul_right _ hlow

/-- The value is below the power of ten above the leading one. -/
theorem lt_leadingPlace (i : RoundingInterval) (hunit : i.unit ≠ 0) :
    i.value * gridFactor (i.leadingPlace + 1) < i.gridUnit (i.leadingPlace + 1) := by
  simp only [leadingPlace]
  split
  · have hvalue := lt_pow_length i.value
    have hlow := pow_length_le hunit
    have hpos := length_toDigits_pos i.unit
    unfold gridFactor gridUnit
    generalize (Nat.toDigits 10 i.value).length = lv at hvalue
    generalize (Nat.toDigits 10 i.unit).length = lu at hlow hpos
    have hpow : Nat.pow 10 lv * Nat.pow 10 (-((lv : Int) - lu + 1)).toNat =
        Nat.pow 10 (lu - 1) * Nat.pow 10 ((lv : Int) - lu + 1).toNat := by
      simp only [Nat.pow_eq, ← Nat.pow_add]
      congr 1
      omega
    calc i.value * Nat.pow 10 (-((lv : Int) - lu + 1)).toNat
        < Nat.pow 10 lv * Nat.pow 10 (-((lv : Int) - lu + 1)).toNat :=
          Nat.mul_lt_mul_of_pos_right hvalue (Nat.pow_pos (by decide))
      _ = Nat.pow 10 (lu - 1) * Nat.pow 10 ((lv : Int) - lu + 1).toNat := hpow
      _ ≤ i.unit * Nat.pow 10 ((lv : Int) - lu + 1).toNat := Nat.mul_le_mul_right _ hlow
  · rename_i hguess
    rw [Int.sub_add_cancel]
    exact Nat.lt_of_not_le hguess

/-- What is `10 ^ k` or more has its leading place at `k` or above. -/
theorem le_leadingPlace (i : RoundingInterval) (hunit : i.unit ≠ 0) {k : Nat}
    (h : i.unit * Nat.pow 10 k ≤ i.value) : (k : Int) ≤ i.leadingPlace := by
  apply Int.le_of_not_gt
  intro hlow
  have hlt := i.lt_leadingPlace hunit
  have hgrid : i.gridUnit (i.leadingPlace + 1) ≤ i.unit * Nat.pow 10 k :=
    Nat.mul_le_mul_left _ (Nat.pow_le_pow_right (by decide) (by omega))
  have hvalue : i.value ≤ i.value * gridFactor (i.leadingPlace + 1) :=
    Nat.le_mul_of_pos_right _ (Nat.pow_pos (by decide))
  exact Nat.lt_irrefl _ (Nat.lt_of_le_of_lt (Nat.le_trans h hvalue) (Nat.lt_of_lt_of_le hlt hgrid))

/-- Sixteen places below the leading one the grid is that much finer. -/
theorem gridUnit_le (i : RoundingInterval) (hvalue : i.value ≠ 0) :
    Nat.pow 10 16 * i.gridUnit (i.leadingPlace - 16) ≤ i.value * gridFactor (i.leadingPlace - 16) := by
  have hlead := i.leadingPlace_le hvalue
  unfold gridUnit gridFactor at hlead ⊢
  generalize i.leadingPlace = place at hlead ⊢
  have hpow : Nat.pow 10 16 * Nat.pow 10 (place - 16).toNat * Nat.pow 10 (-place).toNat =
      Nat.pow 10 place.toNat * Nat.pow 10 (-(place - 16)).toNat := by
    simp only [Nat.pow_eq, ← Nat.pow_add]
    congr 1
    omega
  have hpos : 0 < Nat.pow 10 (-place).toNat := Nat.pow_pos (by decide)
  refine Nat.le_of_mul_le_mul_right ?_ hpos
  calc Nat.pow 10 16 * (i.unit * Nat.pow 10 (place - 16).toNat) * Nat.pow 10 (-place).toNat
      = i.unit * (Nat.pow 10 16 * Nat.pow 10 (place - 16).toNat * Nat.pow 10 (-place).toNat) := by
        rw [Nat.mul_left_comm, Nat.mul_assoc]
    _ = i.unit * Nat.pow 10 place.toNat * Nat.pow 10 (-(place - 16)).toNat := by
        rw [hpow, Nat.mul_assoc]
    _ ≤ i.value * Nat.pow 10 (-place).toNat * Nat.pow 10 (-(place - 16)).toNat :=
        Nat.mul_le_mul_right _ hlead
    _ = i.value * Nat.pow 10 (-(place - 16)).toNat * Nat.pow 10 (-place).toNat :=
        Nat.mul_right_comm _ _ _

end RoundingInterval

namespace Double

/-! ## Grid points in the interval of a double -/

/-- Numerators over the denominator of the interval, counted in quarters of units. -/
theorem exists_scaling (x : Double) (place : Int) : ∃ r : ℚ, 0 < r ∧
    (∀ a : Nat, ((a * x.stepUnits : Nat) : ℚ) =
      ((a * Nat.pow 2 (x.scale - 2).toNat * RoundingInterval.gridFactor place : Nat) : ℚ) * r) ∧
    ∀ c : Nat, (c : ℚ) * 10 ^ place * (4 * unitsInOne) =
      ((c * (RoundingInterval.ofDouble x).gridUnit place : Nat) : ℚ) * r := by
  have hstep : x.stepUnits * Nat.pow 2 (2 - x.scale).toNat =
      Nat.pow 2 (x.scale - 2).toNat * (4 * unitsInOne) := by
    have hfour : 4 = 2 ^ 2 := rfl
    simp only [stepUnits, unitsInOne, Nat.pow_eq]
    rw [hfour, ← Nat.pow_add, ← Nat.pow_add, ← Nat.pow_add]
    congr 1
    unfold scale unitPlaces
    omega
  have hstep : (x.stepUnits : ℚ) * 2 ^ (2 - x.scale).toNat =
      2 ^ (x.scale - 2).toNat * (4 * unitsInOne) := by exact_mod_cast hstep
  have hten : (10 : ℚ) ^ place * 10 ^ (-place).toNat = 10 ^ place.toNat := by
    rw [← zpow_natCast, ← zpow_natCast, ← zpow_add₀ (by norm_num)]
    congr 1
    omega
  have hquarter : (0 : ℚ) < 4 * unitsInOne := mul_pos four_pos unitsInOne_pos
  have hden : (0 : ℚ) < 2 ^ (2 - x.scale).toNat * 10 ^ (-place).toNat := by positivity
  refine ⟨4 * unitsInOne / (2 ^ (2 - x.scale).toNat * 10 ^ (-place).toNat), div_pos hquarter hden,
    fun a => ?_, fun c => ?_⟩
  · rw [mul_div_assoc', eq_div_iff hden.ne']
    simp only [RoundingInterval.gridFactor, Nat.pow_eq]
    push_cast
    linear_combination (a * 10 ^ (-place).toNat : ℚ) * hstep
  · rw [mul_div_assoc', eq_div_iff hden.ne']
    simp only [RoundingInterval.gridUnit, RoundingInterval.ofDouble, Nat.pow_eq]
    push_cast
    linear_combination (c * (4 * unitsInOne) * 2 ^ (2 - x.scale).toNat : ℚ) * hten

theorem rounds_of_inside {x : Double} {place : Int} {c : Nat}
    (h : (RoundingInterval.ofDouble x).Inside place c) : x.Rounds (c * 10 ^ place) := by
  obtain ⟨r, hr, hends, hgrid⟩ := x.exists_scaling place
  have hlow : (x.lowQuarters : ℚ) =
      (((RoundingInterval.ofDouble x).low * RoundingInterval.gridFactor place : Nat) : ℚ) * r :=
    hends _
  have hhigh : (x.highQuarters : ℚ) =
      (((RoundingInterval.ofDouble x).high * RoundingInterval.gridFactor place : Nat) : ℚ) * r :=
    hends _
  refine ⟨?_, ?_, ?_⟩
  · rw [hlow, hgrid]
    exact mul_le_mul_of_nonneg_right (Nat.cast_le.2 h.low_le) hr.le
  · rw [hhigh, hgrid]
    exact mul_le_mul_of_nonneg_right (Nat.cast_le.2 h.le_high) hr.le
  · rw [hlow, hhigh, hgrid]
    intro hend
    have hclosed := h.closed_of_end (hend.imp (fun heq => Nat.cast_injective (mul_right_cancel₀ hr.ne' heq))
      fun heq => Nat.cast_injective (mul_right_cancel₀ hr.ne' heq))
    exact beq_iff_eq.1 hclosed

/-! ## Seventeen digits -/

theorem significand_ne_zero {x : Double} (hx : x.isZero = false) : x.significand ≠ 0 := by
  intro hzero
  have hunits : x.units = 0 := by rw [units, hzero, Nat.zero_mul]
  rw [isZero_of_units_eq_zero hunits] at hx
  cases hx

/-- The grid of seventeen digits is finer than the interval. -/
theorem exists_candidate?_seventeen (tie : Tie) {x : Double} (hx : x.isZero = false) : ∃ c,
    (RoundingInterval.ofDouble x).candidate? tie ((RoundingInterval.ofDouble x).leadingPlace - 16) =
      some c := by
  have hsignificand := significand_ne_zero hx
  have hup : 0 < Nat.pow 2 (x.scale - 2).toNat := Nat.two_pow_pos _
  have hunit : 0 < Nat.pow 2 (2 - x.scale).toNat := Nat.two_pow_pos _
  have hvalue : (RoundingInterval.ofDouble x).value ≠ 0 :=
    Nat.mul_ne_zero (Nat.mul_ne_zero four_ne_zero hsignificand) hup.ne'
  have hgrid := (RoundingInterval.ofDouble x).gridUnit_le hvalue
  have hlt := x.significand_lt
  have hbelow : x.quartersBelow = 2 ∨ x.quartersBelow = 1 ∧ x.significand = Nat.pow 2 52 := by
    by_cases hnormal : 1 < x.exponentField
    · exact (quartersBelow_cases hnormal).symm.imp And.left id
    · exact .inl (if_neg fun hpower => hnormal hpower.2)
  generalize (RoundingInterval.ofDouble x).leadingPlace - 16 = place at hgrid ⊢
  refine RoundingInterval.exists_candidate? tie ?_ ?_ ?_ ?_
  · exact Nat.mul_pos hunit (Nat.pow_pos (by decide))
  · exact Nat.mul_le_mul_right _ (Nat.sub_le _ _)
  · exact Nat.mul_lt_mul_of_pos_right (by omega) hup
  · have hwidth : (RoundingInterval.ofDouble x).high - (RoundingInterval.ofDouble x).low =
        (x.quartersBelow + 2) * Nat.pow 2 (x.scale - 2).toNat := by
      simp only [RoundingInterval.ofDouble]
      rw [← Nat.sub_mul, ← quartersBelow]
      congr 1
      omega
    have hfactor : 0 < RoundingInterval.gridFactor place := Nat.pow_pos (by decide)
    have hdigits : 4 * x.significand < Nat.pow 10 16 * (x.quartersBelow + 2) := by
      simp only [Nat.pow_eq] at hlt hbelow ⊢
      omega
    rw [hwidth]
    refine Nat.lt_of_mul_lt_mul_left (a := Nat.pow 10 16) (Nat.lt_of_le_of_lt hgrid ?_)
    rw [← Nat.mul_assoc, ← Nat.mul_assoc]
    exact Nat.mul_lt_mul_of_pos_right (Nat.mul_lt_mul_of_pos_right hdigits hup) hfactor

/-- What is found is on a grid that is at most sixteen places below the leading one. -/
theorem exists_shortest_place (tie : Tie) {x : Double} (hx : x.isZero = false) :
    ∃ (c : Nat) (place : Int), (RoundingInterval.ofDouble x).leadingPlace ≤ place + 16 ∧
      x.Rounds (c * 10 ^ place) ∧ x.shortest tie =
        ⟨((Nat.toDigits 10 c).reverse.dropWhile (· == '0')).reverse,
          (Nat.toDigits 10 c).length + place⟩ := by
  have hzero : ¬ x.isZero = true := Bool.eq_false_iff.1 hx
  simp only [shortest, if_neg hzero]
  generalize hfound : List.findSome? _ (List.range 17) = found
  cases found with
  | none =>
    obtain ⟨c, hc⟩ := exists_candidate?_seventeen tie hx
    have hlast := List.findSome?_eq_none_iff.1 hfound 16 (by decide)
    rw [Option.map_eq_none_iff] at hlast
    exact absurd (hc.symm.trans hlast) nofun
  | some numeral =>
    obtain ⟨n, hmem, hn⟩ := List.exists_of_findSome?_eq_some hfound
    obtain ⟨c, hc, rfl⟩ := Option.map_eq_some_iff.1 hn
    have hplaces := List.mem_range.1 hmem
    exact ⟨c, _, by omega, rounds_of_inside (RoundingInterval.inside_of_candidate? hc), rfl⟩

theorem exists_shortest (tie : Tie) {x : Double} (hx : x.isZero = false) : ∃ (c : Nat) (place : Int),
    x.Rounds (c * 10 ^ place) ∧ x.shortest tie =
      ⟨((Nat.toDigits 10 c).reverse.dropWhile (· == '0')).reverse,
        (Nat.toDigits 10 c).length + place⟩ := by
  obtain ⟨c, place, -, hfound⟩ := exists_shortest_place tie hx
  exact ⟨c, place, hfound⟩

/-! ## Integers of seventeen digits -/

/-- Of a double that is an integer the interval's value is that many times its unit. -/
theorem value_of_integer? {x : Double} {n : Int} (h : x.integer? = some n) :
    (RoundingInterval.ofDouble x).value = n.natAbs * (RoundingInterval.ofDouble x).unit := by
  obtain ⟨r, hr, hends, hgrid⟩ := x.exists_scaling 0
  have hunits : n.natAbs * unitsInOne = x.significand * x.stepUnits := (integer?_eq_some h).2.2
  have hcount : ((4 * x.significand * x.stepUnits : Nat) : ℚ) =
      (n.natAbs : ℚ) * 10 ^ (0 : Int) * (4 * unitsInOne) := by
    rw [Nat.mul_assoc, ← hunits, zpow_zero, mul_one, mul_left_comm]
    push_cast
    rfl
  rw [hends, hgrid] at hcount
  have hscaled := Nat.cast_injective (mul_right_cancel₀ hr.ne' hcount)
  simpa [RoundingInterval.gridFactor, RoundingInterval.gridUnit, RoundingInterval.ofDouble]
    using hscaled

theorem isZero_of_large {x : Double} {n : Int} (hn : x.integer? = some n)
    (hlarge : Nat.pow 10 16 ≤ n.natAbs) : x.isZero = false := by
  rw [← Bool.not_eq_true]
  intro hzero
  rw [integer?_of_isZero hzero] at hn
  cases hn
  exact absurd hlarge (by decide)

/-- From `10 ^ 16` on the shortest decimal of an integer has no digits behind the point. -/
theorem exists_shortest_natural (tie : Tie) {x : Double} {n : Int} (hn : x.integer? = some n)
    (hlarge : Nat.pow 10 16 ≤ n.natAbs) : ∃ c places : Nat,
      x.Rounds (c * Nat.pow 10 places : Nat) ∧ x.shortest tie =
        ⟨((Nat.toDigits 10 c).reverse.dropWhile (· == '0')).reverse,
          (Nat.toDigits 10 c).length + places⟩ := by
  have hx := isZero_of_large hn hlarge
  have hunit : (RoundingInterval.ofDouble x).unit ≠ 0 := (Nat.two_pow_pos _).ne'
  have hlead : ((16 : Nat) : Int) ≤ (RoundingInterval.ofDouble x).leadingPlace := by
    apply RoundingInterval.le_leadingPlace _ hunit
    rw [value_of_integer? hn, Nat.mul_comm]
    exact Nat.mul_le_mul_right _ hlarge
  obtain ⟨c, place, hplace, hrounds, hshortest⟩ := exists_shortest_place tie hx
  obtain ⟨places, rfl⟩ : ∃ places : Nat, place = places := ⟨place.toNat, by omega⟩
  refine ⟨c, places, ?_, hshortest⟩
  rw [zpow_natCast] at hrounds
  exact_mod_cast hrounds

end Double
end LuaHost

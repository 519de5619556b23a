import LuaHost.Number.Double

/-!
# LuaHost.Proofs.Number.Exact

The exact value of a finite double, counted in units of the least positive double `2 ^ (-1074)`.

* `Double.units_lt_units`: greater magnitude bits mean more units, so the units fix the magnitude.
* `Double.integer?_eq_some`: a double that is the integer `n` has `|n| * 2 ^ 1074` units.
* `Double.equals_of_int64?`, `Double.int64?_of_equals`: two doubles are the same 64-bit integer exactly
  when they are equal numbers.
-/

namespace LuaHost
namespace Double

def units (x : Double) : Nat := x.significand * Nat.pow 2 (max x.exponentField 1 - 1)

/-- The exponent of the units in the number one. It is irreducible so that its power of two is never
evaluated. -/
@[irreducible] def unitPlaces : Nat := 1074

def unitsInOne : Nat := Nat.pow 2 unitPlaces

theorem fraction_lt (x : Double) : x.fraction < Nat.pow 2 52 :=
  Nat.mod_lt _ (Nat.two_pow_pos 52)

theorem exponentField_mul_add_fraction (x : Double) :
    x.exponentField * Nat.pow 2 52 + x.fraction = x.magnitude :=
  Nat.div_add_mod' x.magnitude (Nat.pow 2 52)

theorem units_lt_units {x y : Double} (h : x.magnitude < y.magnitude) : x.units < y.units := by
  have hx := x.exponentField_mul_add_fraction
  have hy := y.exponentField_mul_add_fraction
  have hfx := x.fraction_lt
  have hfy := y.fraction_lt
  have hle : x.exponentField ≤ y.exponentField := Nat.div_le_div_right (Nat.le_of_lt h)
  unfold units significand
  simp only [Nat.pow_eq] at hx hy hfx hfy ⊢
  by_cases heq : x.exponentField = y.exponentField
  · -- one binade: the fractions decide
    rw [heq] at hx ⊢
    apply Nat.mul_lt_mul_of_pos_right _ (Nat.two_pow_pos _)
    split <;> omega
  · -- a greater exponent outweighs every significand
    rw [if_neg (by omega : ¬ y.exponentField = 0), show max y.exponentField 1 = y.exponentField by omega]
    have hmin : 2 ^ 52 * 2 ^ (y.exponentField - 1) ≤
        (2 ^ 52 + y.fraction) * 2 ^ (y.exponentField - 1) :=
      Nat.mul_le_mul_right _ (Nat.le_add_right _ _)
    refine Nat.lt_of_lt_of_le ?_ hmin
    split
    · rename_i hzero
      rw [hzero]
      calc x.fraction * 2 ^ (max 0 1 - 1) < 2 ^ 52 := by simpa using hfx
        _ ≤ 2 ^ 52 * 2 ^ (y.exponentField - 1) := Nat.le_mul_of_pos_right _ (Nat.two_pow_pos _)
    · rename_i hpos
      rw [show max x.exponentField 1 = x.exponentField by omega]
      calc (2 ^ 52 + x.fraction) * 2 ^ (x.exponentField - 1)
          < 2 ^ 53 * 2 ^ (x.exponentField - 1) :=
            Nat.mul_lt_mul_of_pos_right (by omega) (Nat.two_pow_pos _)
        _ = 2 ^ 52 * 2 ^ x.exponentField := by
            rw [← Nat.pow_add, ← Nat.pow_add]
            congr 1
            omega
        _ ≤ 2 ^ 52 * 2 ^ (y.exponentField - 1) :=
            Nat.mul_le_mul_left _ (Nat.pow_le_pow_right (by decide) (by omega))

theorem magnitude_eq_of_units_eq {x y : Double} (h : x.units = y.units) :
    x.magnitude = y.magnitude := by
  rcases Nat.lt_trichotomy x.magnitude y.magnitude with hlt | heq | hlt
  · have := units_lt_units hlt
    omega
  · exact heq
  · have := units_lt_units hlt
    omega

theorem units_eq_zero_iff {x : Double} : x.units = 0 ↔ x.magnitude = 0 := by
  have hx := x.exponentField_mul_add_fraction
  have hpos : Nat.pow 2 (max x.exponentField 1 - 1) ≠ 0 :=
    Nat.pos_iff_ne_zero.1 (Nat.two_pow_pos _)
  simp only [Nat.pow_eq] at hx hpos
  rw [units, Nat.pow_eq, Nat.mul_eq_zero, or_iff_left hpos, significand, Nat.pow_eq]
  split <;> omega

theorem eq_of_bits {x y : Double} (h : x.bits = y.bits) : x = y := by
  cases x
  cases y
  exact congrArg Double.mk h

theorem ext_of_negative_magnitude {x y : Double} (hn : x.negative = y.negative)
    (hm : x.magnitude = y.magnitude) : x = y := by
  have hx := x.bits.toNat_lt
  have hy := y.bits.toNat_lt
  simp only [negative, decide_eq_decide, Nat.pow_eq] at hn
  simp only [magnitude, Nat.pow_eq] at hm
  apply eq_of_bits
  apply UInt64.toNat_inj.1
  omega

/-! ## Exact integers -/

/-- A power of two that divides a number is divided out, then multiplied in again with what was missing. -/
theorem div_mul_pow_mul_pow {m e c : Nat} (he : 1 ≤ e) (hmod : m % Nat.pow 2 (c + 1 - e) = 0) :
    m / Nat.pow 2 (c + 1 - e) * Nat.pow 2 (e - (c + 1)) * Nat.pow 2 c =
      m * Nat.pow 2 (e - 1) := by
  simp only [Nat.pow_eq] at hmod ⊢
  by_cases hle : e ≤ c + 1
  · have hdvd := Nat.div_mul_cancel (Nat.dvd_of_mod_eq_zero hmod)
    rw [Nat.sub_eq_zero_of_le hle, Nat.pow_zero, Nat.mul_one]
    conv => rhs; rw [← hdvd]
    rw [Nat.mul_assoc, ← Nat.pow_add]
    congr 2
    omega
  · rw [Nat.sub_eq_zero_of_le (Nat.le_of_not_le hle), Nat.pow_zero, Nat.div_one, Nat.mul_assoc,
      ← Nat.pow_add]
    congr 2
    omega

theorem integer?_eq_some {x : Double} {n : Int} (h : x.integer? = some n) :
    x.isFinite = true ∧ n = (if x.negative then -(n.natAbs : Int) else n.natAbs) ∧
      n.natAbs * unitsInOne = x.units := by
  unfold integer? at h
  simp only [] at h
  split at h
  · rename_i hcond
    simp only [Bool.and_eq_true, beq_iff_eq] at hcond
    obtain ⟨hfin, hmod⟩ := hcond
    have habs : n.natAbs = x.significand / Nat.pow 2 (-x.scale).toNat * Nat.pow 2 x.scale.toNat := by
      generalize x.significand / Nat.pow 2 (-x.scale).toNat * Nat.pow 2 x.scale.toNat = q at h
      cases h
      split <;> omega
    refine ⟨hfin, ?_, ?_⟩
    · rw [← habs] at h
      exact (Option.some.inj h).symm
    · have hdown : (-x.scale).toNat = unitPlaces + 1 - max x.exponentField 1 := by
        unfold scale unitPlaces
        omega
      have hup : x.scale.toNat = max x.exponentField 1 - (unitPlaces + 1) := by
        unfold scale unitPlaces
        omega
      rw [hdown] at hmod
      rw [habs, units, unitsInOne, hdown, hup]
      exact div_mul_pow_mul_pow (by omega) hmod
  · cases h

theorem integer?_of_isZero {x : Double} (h : x.isZero = true) : x.integer? = some 0 := by
  simp only [isZero, decide_eq_true_eq] at h
  have hexp : x.exponentField = 0 := by simp [exponentField, h]
  have hsig : x.significand = 0 := by simp [significand, hexp, fraction, h]
  have hfin : x.isFinite = true := by simp [isFinite, h, infinityMagnitude]
  simp [integer?, hsig, hfin]

theorem isNaN_of_isFinite {x : Double} (h : x.isFinite = true) : x.isNaN = false := by
  simp only [isFinite, decide_eq_true_eq] at h
  simp only [isNaN, decide_eq_false_iff_not]
  omega

/-- An integer has one double, up to the sign of zero. -/
theorem equals_of_integer? {x y : Double} {n : Int} (hx : x.integer? = some n)
    (hy : y.integer? = some n) : x.equals y = true := by
  obtain ⟨hfx, hsx, hux⟩ := integer?_eq_some hx
  obtain ⟨hfy, hsy, huy⟩ := integer?_eq_some hy
  have hmag := magnitude_eq_of_units_eq (hux.symm.trans huy)
  simp only [equals, isNaN_of_isFinite hfx, isNaN_of_isFinite hfy, Bool.not_false, Bool.true_and]
  by_cases hzero : n = 0
  · have hunits : x.units = 0 := by simpa [hzero] using hux.symm
    have hmx := units_eq_zero_iff.1 hunits
    simp [isZero, hmx, ← hmag]
  · have hneg : x.negative = y.negative := by
      cases hnx : x.negative <;> cases hny : y.negative
      · rfl
      · rw [hnx] at hsx
        rw [hny] at hsy
        simp only [Bool.false_eq_true, if_false, if_true] at hsx hsy
        omega
      · rw [hnx] at hsx
        rw [hny] at hsy
        simp only [Bool.false_eq_true, if_false, if_true] at hsx hsy
        omega
      · rfl
    rw [ext_of_negative_magnitude hneg hmag]
    simp

/-! ## 64-bit integers -/

theorem int64?_eq_some {x : Double} {i : Int64} (h : x.int64? = some i) :
    x.integer? = some i.toInt := by
  unfold int64? at h
  split at h
  · rename_i n hn
    split at h
    · rename_i hrange
      cases h
      rw [hn, Int64.toInt_ofInt_of_le hrange.1 hrange.2]
    · cases h
  · cases h

theorem equals_of_int64? {x y : Double} {i : Int64} (hx : x.int64? = some i)
    (hy : y.int64? = some i) : x.equals y = true :=
  equals_of_integer? (int64?_eq_some hx) (int64?_eq_some hy)

theorem equals_iff {x y : Double} : x.equals y = true ↔
    x.isNaN = false ∧ y.isNaN = false ∧ (x = y ∨ (x.isZero = true ∧ y.isZero = true)) := by
  have hbits : x.bits = y.bits ↔ x = y := ⟨eq_of_bits, congrArg bits⟩
  simp [equals, hbits, and_assoc]

theorem int64?_of_equals {x y : Double} (h : x.equals y = true) : x.int64? = y.int64? := by
  rcases (equals_iff.1 h).2.2 with rfl | ⟨hx, hy⟩
  · rfl
  · rw [int64?, int64?, integer?_of_isZero hx, integer?_of_isZero hy]

end Double
end LuaHost

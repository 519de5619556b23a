import LuaHost.Number.Double

/-!
# LuaHost.Proofs.Number.Rounding

The nearest double of an integer.

* `Double.magnitude_ofMagnitude`: the magnitude that a double is made of.
* `Double.isFinite_ofInt`: 64-bit integers, signed or unsigned, round to finite doubles.
-/

namespace LuaHost.Double

theorem magnitude_ofMagnitude (negative : Bool) {m : Nat} (h : m < Nat.pow 2 63) :
    (ofMagnitude negative m).magnitude = m := by
  simp only [ofMagnitude, magnitude, UInt64.toNat_ofNat', Nat.pow_eq] at h ⊢
  split <;> omega

theorem roundQuotient_le (num den : Nat) : roundQuotient num den ≤ num / den + 1 := by
  simp only [roundQuotient]
  split
  · exact Nat.le_succ _
  · exact Nat.le_refl _

theorem floorLog2_one {n : Nat} (h : n ≠ 0) : floorLog2 n 1 = n.log2 := by
  have hle : 1 * Nat.pow 2 ((n.log2 : Int) - (Nat.log2 1 : Nat)).toNat ≤
      n * Nat.pow 2 (-((n.log2 : Int) - (Nat.log2 1 : Nat))).toNat := by
    have hself := Nat.log2_self_le h
    have hone : Nat.log2 1 = 0 := by decide
    simpa [hone] using hself
  simp only [floorLog2, if_pos hle]
  have hone : Nat.log2 1 = 0 := by decide
  simp [hone]

/-- The significand that an integer is rounded to has at most 53 bits, before it is rounded. -/
theorem shifted_lt (n : Nat) :
    n * Nat.pow 2 (-((n.log2 : Int) - 52)).toNat / (1 * Nat.pow 2 ((n.log2 : Int) - 52).toNat) <
      Nat.pow 2 53 := by
  have hlt : n < 2 ^ (n.log2 + 1) := Nat.lt_log2_self
  have hpow : 2 ^ (n.log2 + 1) * 2 ^ (-((n.log2 : Int) - 52)).toNat =
      2 ^ 53 * 2 ^ ((n.log2 : Int) - 52).toNat := by
    rw [← Nat.pow_add, ← Nat.pow_add]
    congr 1
    omega
  simp only [Nat.pow_eq, Nat.one_mul]
  rw [Nat.div_lt_iff_lt_mul (Nat.two_pow_pos _), ← hpow]
  exact Nat.mul_lt_mul_of_pos_right hlt (Nat.two_pow_pos _)

theorem isFinite_of_magnitude {negative : Bool} {m : Nat} (h : m < infinityMagnitude) :
    (ofMagnitude negative m).isFinite = true := by
  have hinfinity : infinityMagnitude < Nat.pow 2 63 := by decide
  rw [isFinite, magnitude_ofMagnitude negative (Nat.lt_trans h hinfinity)]
  exact decide_eq_true h

theorem isFinite_ofInt {n : Int} (h : n.natAbs < Nat.pow 2 64) : (ofInt n).isFinite = true := by
  rw [ofInt, ofRatio]
  split
  · exact isFinite_of_magnitude (by decide)
  · rename_i hzero
    have hlog : n.natAbs.log2 < 64 := (Nat.log2_lt hzero).2 h
    have hscale : max ((n.natAbs.log2 : Int) - 52) (-1074) = (n.natAbs.log2 : Int) - 52 := by omega
    have hround := roundQuotient_le (n.natAbs * Nat.pow 2 (-((n.natAbs.log2 : Int) - 52)).toNat)
      (1 * Nat.pow 2 ((n.natAbs.log2 : Int) - 52).toNat)
    have hshifted := shifted_lt n.natAbs
    simp only [floorLog2_one hzero, hscale]
    apply isFinite_of_magnitude
    simp only [infinityMagnitude, Nat.pow_eq] at hround hshifted ⊢
    omega

end LuaHost.Double

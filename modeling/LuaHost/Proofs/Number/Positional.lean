import LuaHost.Proofs.Number.Shortest
import Mathlib.Data.List.TakeWhile
import Mathlib.Tactic.LinearCombination

/-!
# LuaHost.Proofs.Number.Positional

Digits in their places, read again.

* `Numeral.value`: the number that a numeral stands for.
* `readPositional`: the number that digits around a point stand for.
* `Numeral.readPositional_positional`: a numeral written in digits is read as its value.
* `Double.rounds_shortest`: the shortest decimal of a double is read as a number that rounds to it.
* `Double.positional_shortest_of_large`: that of an integer from `10 ^ 16` on has the digits of an integer.
-/

namespace LuaHost

/-- The number that the digits before and after a point stand for. -/
def digitsValue (whole decimals : List Char) : ℚ :=
  Nat.ofDigitChars 10 whole 0 + Nat.ofDigitChars 10 decimals 0 / 10 ^ decimals.length

/-- Without a point there are no decimals. -/
def readPositional (cs : List Char) : ℚ :=
  digitsValue (cs.takeWhile (· != '.')) (cs.dropWhile (· != '.')).tail

theorem ne_point_of_isDigit {c : Char} (h : c.isDigit = true) : (c != '.') = true := by
  refine bne_iff_ne.2 ?_
  rintro rfl
  cases h

theorem readPositional_whole {whole : List Char} (h : ∀ c ∈ whole, c.isDigit = true) :
    readPositional whole = Nat.ofDigitChars 10 whole 0 := by
  have hdigits : ∀ c ∈ whole, (c != '.') = true := fun c hc => ne_point_of_isDigit (h c hc)
  rw [readPositional, List.takeWhile_eq_self_iff.2 hdigits, List.dropWhile_eq_nil_iff.2 hdigits,
    digitsValue, List.tail_nil, Nat.ofDigitChars_nil, Nat.cast_zero, zero_div, add_zero]

theorem readPositional_point {whole : List Char} (h : ∀ c ∈ whole, c.isDigit = true)
    (decimals : List Char) : readPositional (whole ++ '.' :: decimals) = digitsValue whole decimals := by
  have hdigits : ∀ c ∈ whole, (c != '.') = true := fun c hc => ne_point_of_isDigit (h c hc)
  rw [readPositional, List.takeWhile_append_of_pos hdigits, List.dropWhile_append_of_pos hdigits,
    List.takeWhile_cons_of_neg (by decide), List.dropWhile_cons_of_neg (by decide), List.append_nil,
    List.tail_cons]

namespace Numeral

/-- The number `digits * 10 ^ (point - length)`. -/
def value (n : Numeral) : ℚ :=
  Nat.ofDigitChars 10 n.digits 0 * 10 ^ (n.point - n.digits.length)

variable {n : Numeral}

theorem isDigit_of_mem_zeros {count : Nat} {c : Char} (h : c ∈ List.replicate count '0') :
    c.isDigit = true := by
  rw [List.eq_of_mem_replicate h]
  rfl

theorem isDigit_of_mem_whole (hdigits : ∀ c ∈ n.digits, c.isDigit = true) :
    ∀ c ∈ n.whole, c.isDigit = true := by
  intro c hc
  unfold whole at hc
  split at hc
  · rw [List.mem_singleton.1 hc]
    rfl
  · rcases List.mem_append.1 hc with htake | hzero
    · exact hdigits c (List.mem_of_mem_take htake)
    · exact isDigit_of_mem_zeros hzero

theorem isDigit_of_mem_decimals (hdigits : ∀ c ∈ n.digits, c.isDigit = true) :
    ∀ c ∈ n.decimals, c.isDigit = true := by
  intro c hc
  rcases List.mem_append.1 hc with hzero | hdrop
  · exact isDigit_of_mem_zeros hzero
  · exact hdigits c (List.mem_of_mem_drop hdrop)

theorem mem_positional (hdigits : ∀ c ∈ n.digits, c.isDigit = true) {c : Char}
    (hc : c ∈ n.positional) : c.isDigit = true ∨ c = '.' := by
  unfold positional at hc
  split at hc
  · exact .inl (isDigit_of_mem_whole hdigits c hc)
  · rename_i ds hds
    rcases List.mem_append.1 hc with hwhole | hpoint
    · exact .inl (isDigit_of_mem_whole hdigits c hwhole)
    · rcases List.mem_cons.1 hpoint with rfl | hdecimal
      · exact .inr rfl
      · exact .inl (isDigit_of_mem_decimals hdigits c hdecimal)

theorem digitsValue_eq (n : Numeral) : digitsValue n.whole n.decimals = n.value := by
  unfold digitsValue value whole decimals
  rcases lt_or_ge 0 n.point with hpos | hsmall
  · have hzeros : (-n.point).toNat = 0 := by omega
    rw [if_neg (Int.not_le.2 hpos), hzeros, List.replicate_zero, List.nil_append]
    rcases Nat.lt_or_ge n.digits.length n.point.toNat with hlong | hshort
    · -- zeros stand between the digits and the point
      have hexp : n.point - n.digits.length = ((n.point.toNat - n.digits.length : Nat) : Int) := by
        omega
      rw [List.take_of_length_le (Nat.le_of_lt hlong), List.drop_of_length_le (Nat.le_of_lt hlong),
        Nat.ofDigitChars_append, Nat.ofDigitChars_replicate_zero, hexp, zpow_natCast]
      simp [mul_comm]
    · -- the point stands between digits
      have hexp : n.point - n.digits.length = -((n.digits.drop n.point.toNat).length : Int) := by
        rw [List.length_drop]
        omega
      have hsplit : Nat.ofDigitChars 10 n.digits 0 =
          10 ^ (n.digits.drop n.point.toNat).length * Nat.ofDigitChars 10 (n.digits.take n.point.toNat) 0 +
            Nat.ofDigitChars 10 (n.digits.drop n.point.toNat) 0 := by
        conv => lhs; rw [← List.take_append_drop n.point.toNat n.digits]
        rw [Nat.ofDigitChars_append, Nat.ofDigitChars_eq_ofDigitChars_zero]
      have hpow : (10 : ℚ) ^ (n.digits.drop n.point.toNat).length ≠ 0 := pow_ne_zero _ (by norm_num)
      rw [Nat.sub_eq_zero_of_le hshort, List.replicate_zero, List.append_nil, hexp, zpow_neg,
        zpow_natCast, hsplit, ← div_eq_mul_inv]
      push_cast
      rw [add_div, mul_div_cancel_left₀ _ hpow]
  · -- zeros stand between the point and the digits
    have hexp : n.point - n.digits.length = -(((-n.point).toNat + n.digits.length : Nat) : Int) := by
      omega
    rw [if_pos hsmall, Int.toNat_of_nonpos hsmall, List.drop_zero, Nat.ofDigitChars_append,
      Nat.ofDigitChars_replicate_zero, List.length_append, List.length_replicate, hexp, zpow_neg,
      zpow_natCast]
    simp [Nat.ofDigitChars_cons, div_eq_mul_inv]

theorem readPositional_positional (hdigits : ∀ c ∈ n.digits, c.isDigit = true) :
    readPositional n.positional = n.value := by
  have hwhole := isDigit_of_mem_whole hdigits
  rw [← digitsValue_eq, positional]
  split
  · rename_i hnone
    rw [readPositional_whole hwhole, hnone, digitsValue]
    simp
  · exact readPositional_point hwhole _

/-! ## Trailing zeros -/

theorem exists_zeros (ds : List Char) :
    ∃ k, ds = (ds.reverse.dropWhile (· == '0')).reverse ++ List.replicate k '0' := by
  refine ⟨(ds.reverse.takeWhile (· == '0')).length, ?_⟩
  have hzeros : ds.reverse.takeWhile (· == '0') =
      List.replicate (ds.reverse.takeWhile (· == '0')).length '0' := by
    refine List.eq_replicate_of_mem fun c hc => ?_
    exact beq_iff_eq.1 (List.mem_takeWhile_imp (p := (· == '0')) hc)
  have hsplit := congrArg List.reverse
    (List.takeWhile_append_dropWhile (p := (· == '0')) (l := ds.reverse))
  rw [hzeros, List.reverse_append, List.reverse_reverse, List.reverse_replicate] at hsplit
  exact hsplit.symm

/-- Zeros at the end of the digits are not needed. -/
theorem value_of_zeros (digits : List Char) (k : Nat) (place : Int) :
    value ⟨digits, (digits ++ List.replicate k '0').length + place⟩ =
      Nat.ofDigitChars 10 (digits ++ List.replicate k '0') 0 * 10 ^ place := by
  have hexp : (((digits ++ List.replicate k '0').length : Int) + place) - digits.length =
      (k : Int) + place := by
    rw [List.length_append, List.length_replicate]
    omega
  rw [value, hexp, zpow_add₀ (by norm_num), zpow_natCast, Nat.ofDigitChars_append,
    Nat.ofDigitChars_replicate_zero]
  push_cast
  rw [mul_left_comm, mul_assoc]

/-- Where no digit is behind the point, the zeros in front of it stand behind the digits. -/
theorem positional_of_zeros {digits : List Char} {k : Nat} (h : digits ++ List.replicate k '0' ≠ [])
    (places : Nat) :
    positional ⟨digits, (digits ++ List.replicate k '0').length + (places : Int)⟩ =
      digits ++ List.replicate k '0' ++ List.replicate places '0' := by
  have hpos := List.length_pos_iff.2 h
  rw [List.length_append, List.length_replicate] at hpos ⊢
  have hpoint : (((digits.length + k : Nat) : Int) + places).toNat = digits.length + (k + places) := by
    omega
  have hdecimals : decimals ⟨digits, ((digits.length + k : Nat) : Int) + places⟩ = [] := by
    have hzeros : (-(((digits.length + k : Nat) : Int) + places)).toNat = 0 := by omega
    rw [decimals, hzeros, hpoint, List.drop_of_length_le (Nat.le_add_right _ _)]
    rfl
  have hnonpos : ¬ ((digits.length + k : Nat) : Int) + places ≤ 0 := by omega
  rw [positional, hdecimals]
  show whole _ = _
  rw [whole, if_neg hnonpos, hpoint, List.take_of_length_le (Nat.le_add_right _ _),
    Nat.add_sub_cancel_left, List.replicate_add, List.append_assoc]

theorem toDigits_mul_pow {c : Nat} (hc : 0 < c) (k : Nat) :
    Nat.toDigits 10 (c * Nat.pow 10 k) = Nat.toDigits 10 c ++ List.replicate k '0' := by
  induction k with
  | zero => exact (congrArg _ (Nat.mul_one c)).trans (List.append_nil _).symm
  | succ k ih =>
    have hpos : 0 < c * Nat.pow 10 k := Nat.mul_pos hc (Nat.pow_pos (by decide))
    have hlast := Nat.toDigits_append_toDigits (b := 10) (by decide) hpos (d := 0) (by decide)
    have hnext : c * Nat.pow 10 (k + 1) = 10 * (c * Nat.pow 10 k) + 0 := by
      rw [Nat.pow_eq, Nat.pow_succ, ← Nat.mul_assoc, Nat.mul_comm]
      rfl
    rw [hnext, ← hlast, ih, List.append_assoc, List.replicate_succ']
    rfl

end Numeral

namespace Double

variable {x : Double}

theorem isDigit_of_mem_shortest (tie : Tie) (hx : x.isZero = false) :
    ∀ c ∈ (x.shortest tie).digits, c.isDigit = true := by
  obtain ⟨n, place, _, hshortest⟩ := exists_shortest tie hx
  rw [hshortest]
  intro c hc
  have hmem := (List.dropWhile_sublist _).subset (List.mem_reverse.1 hc)
  exact Nat.isDigit_of_mem_toDigits (by decide) (by decide) (List.mem_reverse.1 hmem)

/-- The shortest decimal, written in digits, is read as a number that rounds to the double. -/
theorem rounds_shortest (tie : Tie) (hx : x.isZero = false) :
    x.Rounds (readPositional (x.shortest tie).positional) := by
  have hdigits := isDigit_of_mem_shortest tie hx
  obtain ⟨n, place, hrounds, hshortest⟩ := exists_shortest tie hx
  rw [Numeral.readPositional_positional hdigits, hshortest]
  obtain ⟨k, hzeros⟩ := Numeral.exists_zeros (Nat.toDigits 10 n)
  generalize ((Nat.toDigits 10 n).reverse.dropWhile (· == '0')).reverse = digits at hzeros ⊢
  rwa [hzeros, Numeral.value_of_zeros, ← hzeros, Nat.ofDigitChars_ten_toDigits]

theorem pos_of_rounds (hx : x.isZero = false) {n : Nat} (h : x.Rounds n) : 0 < n := by
  apply Nat.pos_of_ne_zero
  rintro rfl
  have hlow := h.low_le
  rw [Nat.cast_zero, zero_mul] at hlow
  have hsignificand := significand_ne_zero hx
  have hbelow := x.quartersBelow_le
  have hpos : 0 < x.lowQuarters := Nat.mul_pos (by omega) x.stepUnits_pos
  exact absurd (Nat.cast_pos.2 hpos) (not_lt.2 hlow)

/-- From `10 ^ 16` on, what is written for an integer are the digits of an integer that rounds to it. -/
theorem positional_shortest_of_large (tie : Tie) {n : Int} (hn : x.integer? = some n)
    (hlarge : Nat.pow 10 16 ≤ n.natAbs) :
    ∃ d : Nat, 0 < d ∧ x.Rounds d ∧ (x.shortest tie).positional = Nat.toDigits 10 d := by
  obtain ⟨c, places, hrounds, hshortest⟩ := exists_shortest_natural tie hn hlarge
  have hpos := pos_of_rounds (isZero_of_large hn hlarge) hrounds
  refine ⟨_, hpos, hrounds, ?_⟩
  rw [hshortest, Numeral.toDigits_mul_pow (Nat.pos_of_mul_pos_right hpos)]
  obtain ⟨k, hzeros⟩ := Numeral.exists_zeros (Nat.toDigits 10 c)
  have hne := Nat.toDigits_ne_nil (n := c) (b := 10)
  generalize ((Nat.toDigits 10 c).reverse.dropWhile (· == '0')).reverse = digits at hzeros ⊢
  rw [hzeros] at hne ⊢
  exact Numeral.positional_of_zeros hne places

end Double
end LuaHost

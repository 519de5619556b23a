import LuaHost.Proofs.Number.Rational
import LuaHost.Proofs.Value.RawEquality

/-!
# LuaHost.Proofs.Value.Equality

What raw equality means, and what a hash function is fed.

* `Value.rawEq_self_iff`: only a NaN differs from itself.
* `Value.integer_rawEq_float_iff`, `Value.float_rawEq_float_iff`: numbers are compared by their exact
  values, whichever their subtypes.
* `Value.fingerprint_eq_iff`: raw-equal values, and NaNs of the same bits, are fed to a hash function
  alike, and no other values are.
* `Value.rawEq_laws`: the laws together.
-/

namespace LuaHost
namespace Value

/-! ## NaNs -/

theorem exists_float_of_isNaN {v : Value} (h : v.isNaN = true) :
    ∃ x : Double, x.isNaN = true ∧ v = .float x := by
  cases v with
  | float x => exact ⟨x, h, rfl⟩
  | _ => cases h

theorem fingerprint_of_isNaN {x : Double} (h : x.isNaN = true) :
    (Value.float x).fingerprint = .bits x.bits := by
  simp only [fingerprint]
  split
  · rename_i i hi
    rw [Double.isNaN_of_int64? hi] at h
    cases h
  · rfl

theorem rawEq_self_iff {a : Value} :
    a.rawEq a = true ↔ ∀ x : Double, a = .float x → x.isNaN = false := by
  rw [rawEq_iff, and_iff_left rfl]
  constructor
  · rintro h x rfl
    exact h
  · intro h
    cases a with
    | float x => exact h x rfl
    | _ => rfl

/-! ## Numbers -/

theorem integer_rawEq_float_iff {i : Int64} {x : Double} :
    (Value.integer i).rawEq (.float x) = true ↔ x.toRat? = some (i.toInt : ℚ) := by
  rw [rawEq, beq_iff_eq, Double.int64?_eq_some_iff]

theorem float_rawEq_float_iff {x y : Double} (hx : x.isFinite = true) (hy : y.isFinite = true) :
    (Value.float x).rawEq (.float y) = true ↔ x.toRat? = y.toRat? :=
  Double.equals_iff_toRat? hx hy

theorem toValue_of_asNumber? {a : Value} {m : Number} (h : a.asNumber? = some m) :
    m.toValue = a := by
  cases a with
  | integer i =>
    cases h
    rfl
  | float x =>
    cases h
    rfl
  | _ => cases h

/-! ## Hashing -/

theorem fingerprint_eq_iff {a b : Value} : a.fingerprint = b.fingerprint ↔
    a.rawEq b = true ∨ ∃ x : Double, x.isNaN = true ∧ a = .float x ∧ b = .float x := by
  constructor
  · intro hprint
    cases hnan : a.isNaN with
    | false => exact .inl ((rawEq_iff a b).2 ⟨hnan, hprint⟩)
    | true =>
      have hnan' := isNaN_eq_of_fingerprint hprint ▸ hnan
      obtain ⟨x, hx, rfl⟩ := exists_float_of_isNaN hnan
      obtain ⟨y, hy, rfl⟩ := exists_float_of_isNaN hnan'
      rw [fingerprint_of_isNaN hx, fingerprint_of_isNaN hy] at hprint
      have hxy : x = y := Double.eq_of_bits (Fingerprint.bits.inj hprint)
      exact .inr ⟨x, hx, rfl, by rw [hxy]⟩
  · rintro (heq | ⟨x, _, rfl, rfl⟩)
    · exact fingerprint_eq_of_rawEq heq
    · rfl

/-- **The laws of raw equality.** It is symmetric and transitive, and reflexive but for the NaNs. An
integer equals a float exactly when the float is finite and has the integer as its exact value, at
every magnitude; finite floats are equal exactly when their values are. Numbers taken out of values
are equal as the values are. Two values are fed to a hash function alike exactly when they are
raw-equal or are NaNs with the same bits. -/
theorem rawEq_laws (a b c : Value) :
    a.rawEq b = b.rawEq a ∧
    (a.rawEq b = true → b.rawEq c = true → a.rawEq c = true) ∧
    (a.rawEq a = true ↔ ∀ x : Double, a = .float x → x.isNaN = false) ∧
    (∀ (i : Int64) (x : Double),
      (Value.integer i).rawEq (.float x) = true ↔ x.toRat? = some (i.toInt : ℚ)) ∧
    (∀ x y : Double, x.isFinite = true → y.isFinite = true →
      ((Value.float x).rawEq (.float y) = true ↔ x.toRat? = y.toRat?)) ∧
    (∀ m n : Number, a.asNumber? = some m → b.asNumber? = some n → m.equals n = a.rawEq b) ∧
    (∀ m n : Number, m.equals n = m.toValue.rawEq n.toValue) ∧
    (a.fingerprint = b.fingerprint ↔
      a.rawEq b = true ∨ ∃ x : Double, x.isNaN = true ∧ a = .float x ∧ b = .float x) := by
  refine ⟨rawEq_comm a b, rawEq_trans, rawEq_self_iff, fun _ _ => integer_rawEq_float_iff,
    fun _ _ => float_rawEq_float_iff, ?_, fun _ _ => rfl, fingerprint_eq_iff⟩
  intro m n hm hn
  rw [Number.equals, toValue_of_asNumber? hm, toValue_of_asNumber? hn]

/-- The float `2 ^ 53` is not the integer one above it, to which no float is equal. -/
example : (Value.integer 9007199254740993).rawEq (.float ⟨0x4340000000000000⟩) = false := by decide

/-- The least 64-bit integer is a float; the float `2 ^ 63` is just past the greatest one. -/
example : (Value.integer Int64.minValue).rawEq (.float ⟨0xC3E0000000000000⟩) = true ∧
    (Value.integer Int64.maxValue).rawEq (.float ⟨0x43E0000000000000⟩) = false := by decide

end Value
end LuaHost

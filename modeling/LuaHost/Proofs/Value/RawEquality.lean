import LuaHost.Proofs.Number.Exact
import LuaHost.Value.Basic

/-!
# LuaHost.Proofs.Value.RawEquality

Raw equality is equality of fingerprints, NaN apart (`Value.rawEq_iff`). So it is symmetric and
transitive, also across the two number subtypes.
-/

namespace LuaHost

theorem Double.isNaN_of_int64? {x : Double} {i : Int64} (h : x.int64? = some i) :
    x.isNaN = false :=
  isNaN_of_isFinite (integer?_eq_some (int64?_eq_some h)).1

/-- Two floats that are no NaN are equal numbers exactly when their fingerprints agree. -/
theorem Double.equals_iff_fingerprint (x y : Double) : x.equals y = true ↔
    x.isNaN = false ∧ (Value.float x).fingerprint = (Value.float y).fingerprint := by
  constructor
  · intro h
    refine ⟨(equals_iff.1 h).1, ?_⟩
    rcases (equals_iff.1 h).2.2 with rfl | ⟨hzx, hzy⟩
    · rfl
    · have hx : x.int64? = some 0 := by rw [int64?, integer?_of_isZero hzx]; rfl
      have hy : y.int64? = some 0 := by rw [← int64?_of_equals h, hx]
      simp only [Value.fingerprint, hx, hy]
  · rintro ⟨hnan, hprint⟩
    simp only [Value.fingerprint] at hprint
    split at hprint
    · rename_i i hx
      split at hprint
      · rename_i j hy
        cases hprint
        exact equals_of_int64? hx hy
      · cases hprint
    · split at hprint
      · cases hprint
      · have hxy : x = y := eq_of_bits (Fingerprint.bits.inj hprint)
        exact equals_iff.2 ⟨hnan, hxy ▸ hnan, .inl hxy⟩

/-- Of floats that are no 64-bit integers, the bits are what is hashed. -/
def Fingerprint.isNaN : Fingerprint → Bool
  | .bits b => (Double.mk b).isNaN
  | _ => false

namespace Value

def isNaN : Value → Bool
  | .float x => x.isNaN
  | _ => false

theorem fingerprint_float_eq_integer {x : Double} {i : Int64} :
    (Value.float x).fingerprint = .integer i ↔ x.int64? = some i := by
  simp only [fingerprint]
  split
  · rename_i j hx
    simp [hx]
  · rename_i hx
    simp [hx]

theorem isNaN_eq_of_fingerprint {a b : Value} (h : a.fingerprint = b.fingerprint) :
    a.isNaN = b.isNaN := by
  have key (v : Value) : v.isNaN = v.fingerprint.isNaN := by
    cases v with
    | float x =>
      simp only [fingerprint]
      cases hx : x.int64? with
      | some i => exact Double.isNaN_of_int64? hx
      | none => rfl
    | _ => rfl
  rw [key a, key b, h]

/-- **Raw equality is equality of what is hashed**, except that a NaN equals nothing. -/
theorem rawEq_iff (a b : Value) :
    a.rawEq b = true ↔ a.isNaN = false ∧ a.fingerprint = b.fingerprint := by
  cases a with
  | float x => cases b with
    | float y => exact Double.equals_iff_fingerprint x y
    | integer i =>
      simp only [rawEq, isNaN, beq_iff_eq]
      rw [show (Value.integer i).fingerprint = .integer i from rfl, fingerprint_float_eq_integer]
      constructor
      · exact fun h => ⟨Double.isNaN_of_int64? h, h⟩
      · exact fun h => h.2
    | _ =>
      simp only [rawEq, fingerprint, isNaN]
      split <;> simp
  | integer i => cases b with
    | float y =>
      rw [eq_comm (a := (Value.integer i).fingerprint)]
      simp only [rawEq, isNaN, beq_iff_eq, true_and]
      exact fingerprint_float_eq_integer.symm
    | _ => simp [rawEq, fingerprint, isNaN]
  | _ => cases b <;> simp only [rawEq, fingerprint, isNaN] <;> grind

theorem rawEq_comm (a b : Value) : a.rawEq b = b.rawEq a := by
  rw [Bool.eq_iff_iff, rawEq_iff, rawEq_iff]
  constructor
  · rintro ⟨hnan, hprint⟩
    exact ⟨isNaN_eq_of_fingerprint hprint ▸ hnan, hprint.symm⟩
  · rintro ⟨hnan, hprint⟩
    exact ⟨isNaN_eq_of_fingerprint hprint ▸ hnan, hprint.symm⟩

theorem rawEq_trans {a b c : Value} (hab : a.rawEq b = true) (hbc : b.rawEq c = true) :
    a.rawEq c = true := by
  rw [rawEq_iff] at hab hbc ⊢
  exact ⟨hab.1, hab.2.trans hbc.2⟩

theorem rawEq_congr {a b : Value} (h : a.fingerprint = b.fingerprint) (c : Value) :
    a.rawEq c = b.rawEq c := by
  rw [Bool.eq_iff_iff, rawEq_iff, rawEq_iff, h, isNaN_eq_of_fingerprint h]

theorem fingerprint_eq_of_rawEq {a b : Value} (h : a.rawEq b = true) :
    a.fingerprint = b.fingerprint :=
  ((rawEq_iff a b).1 h).2

theorem kind_eq_of_rawEq {a b : Value} (h : a.rawEq b = true) : a.kind = b.kind := by
  cases a with
  | _ => cases b with
    | _ => first | rfl | cases h

end Value
end LuaHost

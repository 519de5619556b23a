import LuaHost.Proofs.Value.RawEquality
import LuaHost.Table.Basic

/-!
# LuaHost.Proofs.Table.Map

Assignment to a raw table, read back.

* `Value.IsKey`: the keys that can be stored; `Table.normalizeKey_ok`: assignment stores such a key, which
  is raw-equal to what the given key is raw-equal to.
* `Table.get_of_not_contains`: an absent key reads as nil.
* `Table.get_put_other`, `Table.set_other`: assignment at a key leaves what is read at every other key.
-/

namespace LuaHost

namespace Entries

theorem lookup_store_other {key other : Value} (h : key.rawEq other = false) (value : Value)
    (entries : Entries) : lookup other (store key value entries) = lookup other entries := by
  induction entries with
  | nil => simp [store, lookup, h]
  | cons entry rest ih =>
    obtain ⟨k, v⟩ := entry
    rw [store]
    split
    · rename_i hk
      -- the key in place is raw-equal to the assigned one, so not to the other
      have hother : k.rawEq other = false := by
        rw [Value.rawEq_congr (Value.fingerprint_eq_of_rawEq hk), h]
      simp [lookup, hother]
    · simp only [lookup, ih]

theorem lookup_erase_other {key other : Value} (h : key.rawEq other = false) (entries : Entries) :
    lookup other (erase key entries) = lookup other entries := by
  induction entries with
  | nil => rfl
  | cons entry rest ih =>
    obtain ⟨k, v⟩ := entry
    rw [erase, List.filter_cons]
    cases hk : k.rawEq key with
    | true =>
      have hother : k.rawEq other = false := by
        rw [Value.rawEq_congr (Value.fingerprint_eq_of_rawEq hk), h]
      simp only [Bool.not_true, Bool.false_eq_true, if_false, lookup, hother]
      exact ih
    | false =>
      simp only [Bool.not_false, if_true, lookup]
      rw [← erase, ih]

theorem lookup_of_absent {key : Value} {entries : Entries} (h : contains key entries = false) :
    lookup key entries = .nil := by
  induction entries with
  | nil => rfl
  | cons entry rest ih =>
    simp only [contains, List.any_cons, Bool.or_eq_false_iff] at h
    rw [lookup, h.1]
    exact ih h.2

end Entries

/-- What can be a key: no nil, no NaN, and no float that has the value of an integer. -/
structure Value.IsKey (key : Value) : Prop where
  notNil : key ≠ .nil
  notNaN : key.isNaN = false
  notIntegral : ∀ x, key = .float x → x.int64? = none

theorem Value.isKey_integer (i : Int64) : (Value.integer i).IsKey :=
  ⟨nofun, rfl, nofun⟩

theorem Value.isKey_string (s : String) : (Value.string s).IsKey :=
  ⟨nofun, rfl, nofun⟩

/-- No other value is raw-equal to a string. -/
theorem Value.rawEq_string_of_ne {key : Value} {s : String} (h : key ≠ .string s) :
    key.rawEq (.string s) = false := by
  cases key with
  | string k =>
    have hne : k ≠ s := fun heq => h (by rw [heq])
    exact beq_false_of_ne hne
  | _ => rfl

namespace Table

theorem normalizeKey_ok {key stored : Value} (h : normalizeKey key = .ok stored) :
    stored.fingerprint = key.fingerprint ∧ stored.IsKey := by
  cases key with
  | nil => cases h
  | float x =>
    simp only [normalizeKey] at h
    split at h
    · cases h
    · rename_i hnan
      split at h
      · rename_i i hi
        cases h
        exact ⟨(Value.fingerprint_float_eq_integer.2 hi).symm, Value.isKey_integer i⟩
      · rename_i hi
        cases h
        have hfloat : ∀ y, Value.float x = .float y → y.int64? = none := by
          intro y hy
          cases hy
          exact hi
        exact ⟨rfl, by simp, by simpa [Value.isNaN] using hnan, hfloat⟩
  | _ =>
    cases h
    exact ⟨rfl, by simp, rfl, by simp⟩

/-- An absent key reads as nil, whatever is stored at the others. -/
theorem get_of_not_contains {t : Table} {key : Value} (h : t.contains key = false) :
    t.get key = .nil := by
  rw [get]
  cases hnil : key.isNil with
  | true => rfl
  | false =>
    rw [contains, hnil] at h
    exact Entries.lookup_of_absent h

theorem get_put_other {key other : Value} (h : key.rawEq other = false) (t : Table)
    (value : Value) : (t.put key value).get other = t.get other := by
  simp only [get, put]
  cases value.isNil with
  | true => simp only [if_true, Entries.lookup_erase_other h]
  | false => simp only [Bool.false_eq_true, if_false, Entries.lookup_store_other h]

theorem set_other {t t' : Table} {key value : Value} (h : t.set key value = .ok t') :
    t'.metatable = t.metatable ∧ ∀ other, key.rawEq other = false → t'.get other = t.get other := by
  unfold set at h
  split at h
  · cases h
  · rename_i stored hstored
    cases h
    refine ⟨rfl, fun other hother => get_put_other ?_ t value⟩
    rw [Value.rawEq_congr (normalizeKey_ok hstored).1, hother]

end Table
end LuaHost

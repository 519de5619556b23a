import LuaHost.Proofs.Table.WellFormed

/-!
# LuaHost.Proofs.Table.Assignment

Assignment to a raw table as the update of a finite map, whose keys are the same when they are raw-equal.

* `Table.get_congr`, `Table.set_congr`: raw-equal keys read the same entry and assign to the same entry.
* `Table.set_of_nil`, `Table.set_of_isNaN`, `Table.exists_set`: the keys that are refused.
* `Table.get_set`: what is read afterwards, at the key and at every other.
* `Table.WellFormed.count_set`: by how much the number of entries changes.
-/

namespace LuaHost

/-! ## Keys -/

namespace Value

theorem rawEq_congr_right {b c : Value} (h : b.fingerprint = c.fingerprint) (a : Value) :
    a.rawEq b = a.rawEq c := by
  rw [rawEq_comm a b, rawEq_comm a c, rawEq_congr h]

theorem eq_nil_of_rawEq_nil {a : Value} (h : a.rawEq .nil = true) : a = .nil := by
  cases a with
  | nil => rfl
  | _ => cases h

theorem isNil_eq_of_rawEq {a b : Value} (h : a.rawEq b = true) : a.isNil = b.isNil := by
  cases a with
  | nil =>
    rw [rawEq_comm] at h
    rw [eq_nil_of_rawEq_nil h]
  | _ => cases b with
    | nil => cases eq_nil_of_rawEq_nil h
    | _ => rfl

/-- A key in stored form is the only one that is fed to a hash function as it is. -/
theorem IsKey.eq_of_fingerprint {a b : Value} (ha : a.IsKey) (hb : b.IsKey)
    (h : a.fingerprint = b.fingerprint) : a = b := by
  have hstored {v : Value} (hv : v.IsKey) {x : Double} (hx : v = .float x) :
      v.fingerprint = .bits x.bits := by
    rw [hx]
    simp only [fingerprint, hv.notIntegral x hx]
  cases a with
  | float x =>
    rw [hstored ha rfl] at h
    cases b with
    | float y =>
      rw [hstored hb rfl] at h
      rw [Double.eq_of_bits (Fingerprint.bits.inj h)]
    | _ => cases h
  | _ => cases b with
    | float y =>
      rw [hstored hb rfl] at h
      cases h
    | _ => cases h <;> rfl

end Value

namespace Entries

theorem lookup_congr {key other : Value} (h : key.fingerprint = other.fingerprint)
    (entries : Entries) : lookup key entries = lookup other entries := by
  induction entries with
  | nil => rfl
  | cons entry rest ih =>
    obtain ⟨k, v⟩ := entry
    simp only [lookup, Value.rawEq_congr_right h k, ih]

theorem contains_congr {key other : Value} (h : key.fingerprint = other.fingerprint)
    (entries : Entries) : contains key entries = contains other entries := by
  simp only [contains, Value.rawEq_congr_right h]

theorem lookup_of_isNaN {key : Value} (h : key.isNaN = true) (entries : Entries) :
    lookup key entries = .nil := by
  induction entries with
  | nil => rfl
  | cons entry rest ih =>
    obtain ⟨k, v⟩ := entry
    have hk : k.rawEq key = false := by
      rw [Value.rawEq_comm, ← Bool.not_eq_true, Value.rawEq_iff, h]
      exact fun hand => Bool.noConfusion hand.1
    rw [lookup, hk]
    exact ih

/-! ## Reading back -/

theorem lookup_store_same {key : Value} (h : key.rawEq key = true) (value : Value)
    (entries : Entries) : lookup key (store key value entries) = value := by
  induction entries with
  | nil => simp [store, lookup, h]
  | cons entry rest ih =>
    obtain ⟨k, v⟩ := entry
    rw [store]
    split
    · rename_i hk
      simp [lookup, hk]
    · rename_i hk
      simp [lookup, hk, ih]

theorem lookup_erase_same (key : Value) (entries : Entries) :
    lookup key (erase key entries) = .nil := by
  induction entries with
  | nil => rfl
  | cons entry rest ih =>
    obtain ⟨k, v⟩ := entry
    rw [erase, List.filter_cons]
    cases hk : k.rawEq key with
    | true => exact ih
    | false =>
      simp only [Bool.not_false, if_true, lookup, hk]
      exact ih

/-! ## Counting -/

theorem length_keys (entries : Entries) : entries.keys.length = entries.length :=
  List.length_map ..

theorem length_store (key value : Value) (entries : Entries) :
    (store key value entries).length =
      if contains key entries then entries.length else entries.length + 1 := by
  rw [← length_keys, keys_store]
  split
  · exact length_keys entries
  · rw [List.length_append, length_keys, List.length_singleton]

/-- Of distinct keys at most one is raw-equal to the erased one. -/
theorem length_erase {entries : Entries}
    (h : entries.keys.Pairwise fun a b => a.rawEq b = false) (key : Value) :
    (erase key entries).length + (if contains key entries then 1 else 0) = entries.length := by
  induction entries with
  | nil => rfl
  | cons entry rest ih =>
    obtain ⟨k, v⟩ := entry
    obtain ⟨hhead, hrest⟩ := List.pairwise_cons.1 h
    cases hk : k.rawEq key with
    | true =>
      have hsame : erase key rest = rest := by
        apply List.filter_eq_self.2
        intro other hother
        have hdiffers := hhead other.1 (List.mem_map_of_mem hother)
        rw [Value.rawEq_congr (Value.fingerprint_eq_of_rawEq hk), Value.rawEq_comm] at hdiffers
        rw [hdiffers]
        rfl
      have herase : erase key ((k, v) :: rest) = erase key rest := by simp [erase, hk]
      have hcontains : contains key ((k, v) :: rest) = true := by simp [contains, hk]
      rw [herase, hsame, hcontains]
      rfl
    | false =>
      have herase : erase key ((k, v) :: rest) = (k, v) :: erase key rest := by simp [erase, hk]
      have hcontains : contains key ((k, v) :: rest) = contains key rest := by simp [contains, hk]
      rw [herase, hcontains, List.length_cons, List.length_cons, ← ih hrest]
      omega

end Entries

namespace Table

/-! ## Refused keys -/

theorem set_of_nil (t : Table) (value : Value) : t.set .nil value = .error .nilIndex := rfl

theorem set_of_isNaN (t : Table) {key : Value} (h : key.isNaN = true) (value : Value) :
    t.set key value = .error .nanIndex := by
  cases key with
  | float x =>
    have hx : x.isNaN = true := h
    simp only [set, normalizeKey, hx, if_true]
  | _ => cases h

theorem exists_normalizeKey {key : Value} (hnil : key ≠ .nil) (hnan : key.isNaN = false) :
    ∃ stored, normalizeKey key = .ok stored := by
  cases key with
  | nil => exact absurd rfl hnil
  | float x =>
    have hx : x.isNaN = false := hnan
    simp only [normalizeKey, hx, Bool.false_eq_true, if_false]
    split
    · exact ⟨_, rfl⟩
    · exact ⟨_, rfl⟩
  | _ => exact ⟨_, rfl⟩

theorem exists_set (t : Table) {key : Value} (hnil : key ≠ .nil) (hnan : key.isNaN = false)
    (value : Value) : ∃ stored, normalizeKey key = .ok stored ∧
      t.set key value = .ok (t.put stored value) := by
  obtain ⟨stored, hstored⟩ := exists_normalizeKey hnil hnan
  refine ⟨stored, hstored, ?_⟩
  rw [set, hstored]

/-! ## Raw-equal keys -/

theorem get_congr (t : Table) {key other : Value} (h : key.rawEq other = true) :
    t.get key = t.get other := by
  rw [get, get, Value.isNil_eq_of_rawEq h,
    Entries.lookup_congr (Value.fingerprint_eq_of_rawEq h)]

theorem contains_congr (t : Table) {key other : Value} (h : key.rawEq other = true) :
    t.contains key = t.contains other := by
  rw [contains, contains, Value.isNil_eq_of_rawEq h,
    Entries.contains_congr (Value.fingerprint_eq_of_rawEq h)]

theorem normalizeKey_congr {key other : Value} (h : key.rawEq other = true) :
    normalizeKey key = normalizeKey other := by
  have hprint := Value.fingerprint_eq_of_rawEq h
  have hnan := ((Value.rawEq_iff key other).1 h).1
  by_cases hnil : key = .nil
  · rw [hnil, Value.rawEq_comm] at h
    rw [hnil, Value.eq_nil_of_rawEq_nil h]
  · have hnil' : other ≠ .nil := by
      intro heq
      rw [heq] at h
      exact hnil (Value.eq_nil_of_rawEq_nil h)
    have hnan' : other.isNaN = false := Value.isNaN_eq_of_fingerprint hprint ▸ hnan
    obtain ⟨stored, hstored⟩ := exists_normalizeKey hnil hnan
    obtain ⟨stored', hstored'⟩ := exists_normalizeKey hnil' hnan'
    have hkey := normalizeKey_ok hstored
    have hkey' := normalizeKey_ok hstored'
    rw [hstored, hstored',
      hkey.2.eq_of_fingerprint hkey'.2 ((hkey.1.trans hprint).trans hkey'.1.symm)]

theorem set_congr (t : Table) {key other : Value} (h : key.rawEq other = true) (value : Value) :
    t.set key value = t.set other value := by
  rw [set, set, normalizeKey_congr h]

theorem set_integer (t : Table) (i : Int64) (value : Value) :
    t.set (.integer i) value = .ok (t.setAt i.toInt value) := by
  rw [setAt, Int64.ofInt_toInt]
  rfl

theorem getAt_toInt (t : Table) (i : Int64) : t.getAt i.toInt = t.get (.integer i) := by
  rw [getAt, Int64.ofInt_toInt]

theorem get_of_isNaN (t : Table) {key : Value} (h : key.isNaN = true) : t.get key = .nil := by
  rw [get, Entries.lookup_of_isNaN h]
  split <;> rfl

/-! ## The updated map -/

theorem get_put_same (t : Table) {key : Value} (h : key.IsKey) (value : Value) :
    (t.put key value).get key = value := by
  have hself : key.rawEq key = true := (Value.rawEq_iff key key).2 ⟨h.notNaN, rfl⟩
  have hnil : key.isNil = false := by
    cases key with
    | nil => exact absurd rfl h.notNil
    | _ => rfl
  rw [get, put, hnil]
  cases value with
  | nil => exact Entries.lookup_erase_same key t.entries
  | _ => exact Entries.lookup_store_same hself _ t.entries

theorem get_put (t : Table) {key : Value} (h : key.IsKey) (value other : Value) :
    (t.put key value).get other = if key.rawEq other then value else t.get other := by
  cases hother : key.rawEq other with
  | true => rw [← get_congr _ hother, get_put_same t h, if_pos rfl]
  | false => rw [get_put_other hother, if_neg Bool.false_ne_true]

/-- Afterwards the assigned value is read at the keys that are raw-equal to the given one, and at
every other key what was read before. -/
theorem get_set {t t' : Table} {key value : Value} (h : t.set key value = .ok t') (other : Value) :
    t'.get other = if key.rawEq other then value else t.get other := by
  unfold set at h
  split at h
  · cases h
  · rename_i stored hstored
    cases h
    obtain ⟨hprint, hkey⟩ := normalizeKey_ok hstored
    rw [get_put t hkey, Value.rawEq_congr hprint]

theorem WellFormed.count_put {t : Table} (h : t.WellFormed) {key : Value} (hkey : key.IsKey)
    (value : Value) :
    (t.put key value).count + (if t.contains key then 1 else 0) =
      t.count + (if value.isNil then 0 else 1) := by
  have hcontains : t.contains key = Entries.contains key t.entries := by
    cases key with
    | nil => exact absurd rfl hkey.notNil
    | _ => rfl
  rw [hcontains, count, count, Table.put]
  cases hvalue : value.isNil with
  | true =>
    simp only [if_true]
    exact Entries.length_erase h.distinct key
  | false =>
    simp only [Bool.false_eq_true, if_false, Entries.length_store]
    split <;> rfl

/-- An entry more where the key was absent and the value is not nil, an entry less where the key was
present and the value is nil, and as many as before in the other two cases. -/
theorem WellFormed.count_set {t t' : Table} (ht : t.WellFormed) {key value : Value}
    (h : t.set key value = .ok t') :
    t'.count + (if t.contains key then 1 else 0) = t.count + (if value.isNil then 0 else 1) := by
  unfold Table.set at h
  split at h
  · cases h
  · rename_i stored hstored
    cases h
    obtain ⟨hprint, hkey⟩ := normalizeKey_ok hstored
    have hsame : stored.rawEq key = true := (Value.rawEq_iff stored key).2 ⟨hkey.notNaN, hprint⟩
    rw [← t.contains_congr hsame]
    exact ht.count_put hkey value

end Table
end LuaHost

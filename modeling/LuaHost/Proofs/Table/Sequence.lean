import LuaHost.Proofs.Table.Assignment
import LuaHost.Table.Sequence
import Mathlib.Data.List.Nodup
import Mathlib.Data.List.Perm.Subperm

/-!
# LuaHost.Proofs.Table.Sequence

The border that the loops over a sequence find, and the tables that are nothing but a sequence.

* `Table.containsAt_of_le_length`, `Table.WellFormed.containsAt_after_length`: all keys up to the length
  are present, and the one after it is not. `Table.WellFormed.length_eq_of_border`: no other number is
  such a border.
* `Table.WellFormed.length_eq_count_iff`: the length is the number of entries exactly when the keys are
  `1, …, n` and no others.
* `Table.WellFormed.sequence_eq`: the sequence lists what is read at these keys.
-/

namespace LuaHost

/-! ## Positions -/

/-- The keys `1, …, n`. -/
def positions (n : Nat) : List Value :=
  (List.range n).map fun k : Nat => .integer (Int64.ofInt (k + 1 : Nat))

theorem toInt_position {k : Nat} (h : k < Nat.pow 2 63) : (Int64.ofInt k).toInt = k := by
  simp only [Nat.pow_eq] at h
  exact Int64.toInt_ofInt_of_le (by omega) (by omega)

theorem mem_positions {n : Nat} (hn : n < Nat.pow 2 63) {key : Value} :
    key ∈ positions n ↔ ∃ i : Int64, key = .integer i ∧ 1 ≤ i.toInt ∧ i.toInt ≤ n := by
  simp only [positions, List.mem_map, List.mem_range]
  constructor
  · rintro ⟨k, hk, rfl⟩
    have hint := toInt_position (Nat.lt_of_le_of_lt hk hn)
    refine ⟨_, rfl, ?_, ?_⟩
    · rw [hint]
      omega
    · rw [hint]
      omega
  · rintro ⟨i, rfl, hlow, hhigh⟩
    refine ⟨i.toInt.toNat - 1, by omega, ?_⟩
    have hback : ((i.toInt.toNat - 1 + 1 : Nat) : Int) = i.toInt := by omega
    rw [hback, Int64.ofInt_toInt]

theorem length_positions (n : Nat) : (positions n).length = n := by
  rw [positions, List.length_map, List.length_range]

theorem nodup_positions {n : Nat} (hn : n < Nat.pow 2 63) : (positions n).Nodup := by
  refine List.Nodup.map_on ?_ List.nodup_range
  intro a ha b hb heq
  have hints := congrArg Int64.toInt (Value.integer.inj heq)
  rw [toInt_position (Nat.lt_of_le_of_lt (List.mem_range.1 ha) hn),
    toInt_position (Nat.lt_of_le_of_lt (List.mem_range.1 hb) hn)] at hints
  omega

/-- Distinct positions that are all present are at most as many as the entries: no two of them share an
entry. -/
theorem Entries.length_le_of_contains (entries : Entries) {keys : List Nat} (hdistinct : keys.Nodup)
    (hpresent : ∀ k ∈ keys, k < Nat.pow 2 63 ∧
      contains (.integer (Int64.ofInt k)) entries = true) : keys.length ≤ entries.length := by
  have hprints : (keys.map fun k : Nat => Fingerprint.integer (Int64.ofInt k)).Nodup := by
    refine hdistinct.map_on ?_
    intro a ha b hb heq
    have hints := congrArg Int64.toInt (Fingerprint.integer.inj heq)
    rw [toInt_position (hpresent a ha).1, toInt_position (hpresent b hb).1] at hints
    omega
  have hsub : (keys.map fun k : Nat => Fingerprint.integer (Int64.ofInt k)) ⊆
      entries.map fun entry => entry.1.fingerprint := by
    intro print hprint
    obtain ⟨k, hk, rfl⟩ := List.mem_map.1 hprint
    obtain ⟨entry, hentry, heq⟩ := List.any_eq_true.1 (hpresent k hk).2
    exact List.mem_map.2 ⟨entry, hentry, Value.fingerprint_eq_of_rawEq heq⟩
  have hlength := (hprints.subperm hsub).length_le
  rwa [List.length_map, List.length_map] at hlength

namespace Table

/-- The keys of the table are `1, …, n`. -/
def KeysUpTo (t : Table) (n : Nat) : Prop :=
  ∀ key, key ∈ Entries.keys t.entries ↔ ∃ i : Int64, key = .integer i ∧ 1 ≤ i.toInt ∧ i.toInt ≤ n

/-- Fewer entries than there are positive 64-bit integers, as in every table that a memory can hold. -/
def Fits (t : Table) : Prop := t.count < Nat.pow 2 63

instance (t : Table) : Decidable t.Fits := inferInstanceAs (Decidable (_ < _))

variable {t : Table}

/-- No key is past the greatest 64-bit integer. -/
theorem KeysUpTo.exists_lt {n : Nat} (h : t.KeysUpTo n) : ∃ m < Nat.pow 2 63, t.KeysUpTo m := by
  refine ⟨min n (Nat.pow 2 63 - 1), by simp only [Nat.pow_eq]; omega, fun key => ?_⟩
  rw [h key]
  refine exists_congr fun i => and_congr_right fun _ => and_congr_right fun _ => ?_
  have hi := i.toInt_lt
  simp only [Nat.pow_eq]
  omega

/-! ## The border -/

theorem runLength_le (t : Table) (bound : Nat) (start : Int) : t.runLength bound start ≤ bound := by
  induction bound generalizing start with
  | zero => exact Nat.le_refl 0
  | succ bound ih =>
    rw [runLength]
    split
    · exact Nat.succ_le_succ (ih (start + 1))
    · exact Nat.zero_le _

theorem containsAt_of_lt_runLength {bound k : Nat} {start : Int} (h : k < t.runLength bound start) :
    t.containsAt (start + k) = true := by
  induction bound generalizing start k with
  | zero => cases h
  | succ bound ih =>
    rw [runLength] at h
    split at h
    · rename_i hstart
      cases k with
      | zero => simpa using hstart
      | succ k =>
        have hnext := ih (Nat.lt_of_succ_lt_succ h)
        rwa [Int.add_assoc, Int.add_comm 1, ← Int.natCast_succ] at hnext
    · cases h

theorem containsAt_runLength {bound : Nat} {start : Int} (h : t.runLength bound start < bound) :
    t.containsAt (start + t.runLength bound start) = false := by
  induction bound generalizing start with
  | zero => cases h
  | succ bound ih =>
    rw [runLength] at h ⊢
    split at h
    · rename_i hstart
      have hnext := ih (Nat.lt_of_succ_lt_succ h)
      rwa [if_pos hstart, Int.natCast_succ, Int.add_comm _ 1, ← Int.add_assoc]
    · rename_i hstart
      rw [if_neg hstart]
      simpa using hstart

/-- The length is read off the presence of keys, within the number of entries. -/
theorem length_congr {u : Table} (hcontains : ∀ i, t.containsAt i = u.containsAt i)
    (hcount : t.count = u.count) : t.length = u.length := by
  have hrun (bound : Nat) (start : Int) : t.runLength bound start = u.runLength bound start := by
    induction bound generalizing start with
    | zero => rfl
    | succ bound ih => rw [runLength, runLength, hcontains, ih]
  rw [length, length, hrun, hcount]

theorem sequence_congr {u : Table} (hget : ∀ i, t.getAt i = u.getAt i) (hcount : t.count = u.count) :
    t.sequence = u.sequence := by
  have hvalues (bound : Nat) (start : Int) : t.valuesFrom bound start = u.valuesFrom bound start := by
    induction bound generalizing start with
    | zero => rfl
    | succ bound ih => rw [valuesFrom, valuesFrom, hget, ih]
  rw [sequence, sequence, hvalues, hcount]

theorem length_le_count (t : Table) : t.length ≤ t.count := t.runLength_le t.count 1

theorem toInt_rawLength (h : t.Fits) : t.rawLength.toInt = t.length := by
  have hlength := t.length_le_count
  have hfits : t.count < Nat.pow 2 63 := h
  simp only [Nat.pow_eq] at hfits
  exact Int64.toInt_ofNat_of_lt (by omega)

theorem containsAt_of_le_length {k : Nat} (hlow : 1 ≤ k) (hhigh : k ≤ t.length) :
    t.containsAt k = true := by
  have hk : k - 1 < t.length := by omega
  have hcontains := containsAt_of_lt_runLength hk
  rwa [show (1 : Int) + (k - 1 : Nat) = k by omega] at hcontains

/-- A length past the greatest integer wraps around, so that the raw length is never above the length. -/
theorem contains_of_le_rawLength {i : Int64} (hlow : 1 ≤ i) (hhigh : i ≤ t.rawLength) :
    t.contains (.integer i) = true := by
  rw [Int64.le_iff_toInt_le, Int64.toInt_one] at hlow
  rw [Int64.le_iff_toInt_le] at hhigh
  have hlength : i.toInt ≤ t.length := by
    rcases Nat.lt_or_ge t.length (2 ^ 63) with hlt | hge
    · rwa [show t.rawLength.toInt = t.length from Int64.toInt_ofNat_of_lt hlt] at hhigh
    · have hi := i.toInt_lt
      omega
  have hcontains := containsAt_of_le_length (t := t) (k := i.toInt.toNat) (by omega) (by omega)
  rwa [Int.toNat_of_nonneg (by omega), containsAt, Int64.ofInt_toInt] at hcontains

namespace WellFormed

theorem nodup_keys (h : t.WellFormed) : (Entries.keys t.entries).Nodup := by
  refine h.distinct.imp_of_mem ?_
  intro a b ha _ hab heq
  have hself : a.rawEq a = true := (Value.rawEq_iff a a).2 ⟨(h.keys a ha).notNaN, rfl⟩
  rw [← heq, hself] at hab
  cases hab

/-- A key in stored form is present exactly if it is one of the keys. -/
theorem contains_iff_mem (h : t.WellFormed) {key : Value} (hkey : key.IsKey) :
    t.contains key = true ↔ key ∈ Entries.keys t.entries := by
  have hnil : key.isNil = false := by
    cases key with
    | nil => exact absurd rfl hkey.notNil
    | _ => rfl
  rw [contains, hnil, Bool.not_false, Bool.true_and, Entries.contains_eq_any, List.any_eq_true]
  constructor
  · rintro ⟨k, hk, heq⟩
    rwa [← (h.keys k hk).eq_of_fingerprint hkey (Value.fingerprint_eq_of_rawEq heq)]
  · intro hmem
    exact ⟨key, hmem, (Value.rawEq_iff key key).2 ⟨hkey.notNaN, rfl⟩⟩

theorem containsAt_iff_mem (h : t.WellFormed) (i : Int) :
    t.containsAt i = true ↔ Value.integer (Int64.ofInt i) ∈ Entries.keys t.entries :=
  h.contains_iff_mem (Value.isKey_integer _)

theorem count_eq_length_keys (t : Table) : t.count = (Entries.keys t.entries).length :=
  (Entries.length_keys t.entries).symm

/-- Keys up to a number of which each is present are among the keys of the table. -/
theorem positions_subset (h : t.WellFormed) {n : Nat}
    (hall : ∀ k : Nat, 1 ≤ k → k ≤ n → t.containsAt k = true) :
    positions n ⊆ Entries.keys t.entries := by
  intro key hkey
  obtain ⟨k, hk, rfl⟩ := List.mem_map.1 hkey
  have hcontains := hall (k + 1) (Nat.succ_pos k) (List.mem_range.1 hk)
  exact (h.containsAt_iff_mem _).1 hcontains

/-- Distinct keys that are all present are at most as many as the entries. -/
theorem le_count (h : t.WellFormed) {n : Nat} (hn : n < Nat.pow 2 63)
    (hall : ∀ k : Nat, 1 ≤ k → k ≤ n → t.containsAt k = true) : n ≤ t.count := by
  have hsub := (nodup_positions hn).subperm (h.positions_subset hall)
  have hlength := hsub.length_le
  rwa [length_positions, ← count_eq_length_keys] at hlength

theorem containsAt_after_length (h : t.WellFormed) (hfits : t.length + 1 < Nat.pow 2 63) :
    t.containsAt (t.length + 1) = false := by
  rcases Nat.lt_or_ge t.length t.count with hlt | hge
  · have hborder := containsAt_runLength hlt
    rwa [Int.add_comm] at hborder
  · -- with all entries in the sequence, one key more would be one too many
    rw [← Bool.not_eq_true]
    intro hnext
    have hle := h.le_count hfits fun k hlow hhigh => ?_
    · omega
    · rcases Nat.lt_succ_iff_lt_or_eq.1 (Nat.lt_succ_of_le hhigh) with hlt | rfl
      · exact containsAt_of_le_length hlow (Nat.le_of_lt_succ hlt)
      · exact hnext

/-- The length is the only number up to which all keys are present, and no further. -/
theorem length_eq_of_border (h : t.WellFormed) {n : Nat} (hn : n < Nat.pow 2 63)
    (hall : ∀ k : Nat, 1 ≤ k → k ≤ n → t.containsAt k = true)
    (hnext : t.containsAt (n + 1 : Nat) = false) : t.length = n := by
  rcases Nat.lt_trichotomy t.length n with hlt | heq | hgt
  · have hborder := containsAt_runLength (Nat.lt_of_lt_of_le hlt (h.le_count hn hall))
    rw [Int.add_comm] at hborder
    have hpresent := hall (t.length + 1) (Nat.succ_pos _) hlt
    rw [Int.natCast_succ, show t.containsAt (t.length + 1) = false from hborder] at hpresent
    cases hpresent
  · exact heq
  · rw [containsAt_of_le_length (Nat.succ_pos n) hgt] at hnext
    cases hnext

/-! ## Pure sequences -/

theorem keysUpTo_iff_perm {n : Nat} (h : t.WellFormed) (hn : n < Nat.pow 2 63) :
    t.KeysUpTo n ↔ (Entries.keys t.entries).Perm (positions n) := by
  rw [List.perm_ext_iff_of_nodup h.nodup_keys (nodup_positions hn)]
  simp only [mem_positions hn]
  rfl

theorem count_of_keysUpTo (h : t.WellFormed) {n : Nat} (hn : n < Nat.pow 2 63)
    (hkeys : t.KeysUpTo n) : t.count = n := by
  rw [count_eq_length_keys, ((h.keysUpTo_iff_perm hn).1 hkeys).length_eq, length_positions]

theorem keysUpTo_length (h : t.WellFormed) (hfits : t.Fits) (heq : t.length = t.count) :
    t.KeysUpTo t.length := by
  have hn : t.length < Nat.pow 2 63 := heq ▸ hfits
  have hsub := (nodup_positions hn).subperm (h.positions_subset fun k => containsAt_of_le_length)
  -- as many keys as there are leave room for no other key
  refine (h.keysUpTo_iff_perm hn).2 (hsub.perm_of_length_le (Nat.le_of_eq ?_)).symm
  rw [length_positions, heq, count_eq_length_keys]

/-- **The tables that are nothing but a sequence** are those whose length is the number of entries. -/
theorem length_eq_count_iff (h : t.WellFormed) (hfits : t.Fits) :
    t.length = t.count ↔ ∃ n, t.KeysUpTo n := by
  constructor
  · intro heq
    exact ⟨t.length, h.keysUpTo_length hfits heq⟩
  · rintro ⟨n, hn⟩
    obtain ⟨n, hn, hkeys⟩ := hn.exists_lt
    have hcount := h.count_of_keysUpTo hn hkeys
    refine Nat.le_antisymm t.length_le_count ?_
    rcases Nat.lt_or_ge t.length t.count with hlt | hge
    · -- the first absent key would be one of `1, …, n`
      have hborder : t.containsAt ((t.length + 1 : Nat) : Int) = false := by
        have hborder := containsAt_runLength hlt
        rwa [Int.add_comm, ← Int.natCast_succ] at hborder
      have hpresent : t.containsAt ((t.length + 1 : Nat) : Int) = true := by
        rw [h.containsAt_iff_mem, hkeys]
        have hint := toInt_position (k := t.length + 1) (by omega)
        exact ⟨_, rfl, by omega, by omega⟩
      rw [hborder] at hpresent
      cases hpresent
    · exact hge

/-! ## The values of the sequence -/

theorem valuesFrom_eq (h : t.WellFormed) (bound : Nat) (start : Int) :
    t.valuesFrom bound start =
      (List.range (t.runLength bound start)).map fun k : Nat => t.getAt (start + k) := by
  induction bound generalizing start with
  | zero => rfl
  | succ bound ih =>
    have hcontains := h.contains_iff (.integer (Int64.ofInt start))
    rw [valuesFrom, runLength]
    by_cases hvalue : t.getAt start = .nil
    · have habsent : ¬ t.containsAt start = true := fun hc => hcontains.1 hc hvalue
      rw [if_neg habsent, hvalue]
      rfl
    · have hpresent : t.containsAt start = true := hcontains.2 hvalue
      rw [if_pos hpresent, List.range_succ_eq_map, List.map_cons, List.map_map]
      have hrest : t.valuesFrom bound (start + 1) = (List.range (t.runLength bound (start + 1))).map
          ((fun k : Nat => t.getAt (start + k)) ∘ Nat.succ) := by
        rw [ih]
        refine List.map_congr_left fun k _ => ?_
        rw [Function.comp_apply, Nat.succ_eq_add_one]
        congr 1
        omega
      rw [← hrest, Int.natCast_zero, Int.add_zero]
      split
      · contradiction
      · rfl

theorem sequence_eq (h : t.WellFormed) :
    t.sequence = (List.range t.length).map fun k : Nat => t.getAt ((k + 1 : Nat) : Int) := by
  refine (h.valuesFrom_eq t.count 1).trans (List.map_congr_left fun k _ => ?_)
  rw [Int.natCast_succ, Int.add_comm]

end WellFormed
end Table
end LuaHost

import LuaHost.Proofs.Table.Edits

/-!
# LuaHost.Proofs.Table.WellFormed

What holds of the entries of every table that is made by its own operations.

* `Table.WellFormed`: no stored nil, only keys in stored form, and no two raw-equal keys.
* `Table.WellFormed.put`: assignment at a key in stored form keeps it.
* `Table.WellFormed.stable`: so does assignment at a position, and with it every sequence operation.
* `Table.WellFormed.apply`: every raw change keeps it.
* `Table.WellFormed.contains_iff`: in such a table the present keys are those that do not read as nil.
-/

namespace LuaHost

/-! ## Keys -/

namespace Entries

def keys (entries : Entries) : List Value := entries.map Prod.fst

theorem contains_eq_any (key : Value) (entries : Entries) :
    contains key entries = entries.keys.any (·.rawEq key) := by
  simp [contains, keys, List.any_map, Function.comp_def]

theorem keys_erase (key : Value) (entries : Entries) :
    (erase key entries).keys = entries.keys.filter (!·.rawEq key) := by
  simp [erase, keys, List.filter_map, Function.comp_def]

/-- Storing adds the key behind the others, or no key where a raw-equal one is present. -/
theorem keys_store (key value : Value) (entries : Entries) :
    (store key value entries).keys =
      if contains key entries then entries.keys else entries.keys ++ [key] := by
  induction entries with
  | nil => rfl
  | cons entry rest ih =>
    obtain ⟨k, v⟩ := entry
    cases hk : k.rawEq key with
    | true => simp [store, contains, keys, hk]
    | false =>
      have htail : (store key value ((k, v) :: rest)).keys = k :: (store key value rest).keys := by
        simp [store, keys, hk]
      rw [htail, ih]
      by_cases hrest : contains key rest = true
      · have hall : contains key ((k, v) :: rest) = true := by
          simp only [contains, List.any_cons, hk, Bool.false_or]
          exact hrest
        rw [if_pos hrest, if_pos hall]
        rfl
      · have hall : contains key ((k, v) :: rest) ≠ true := by
          simp only [contains, List.any_cons, hk, Bool.false_or]
          exact hrest
        rw [if_neg hrest, if_neg hall]
        rfl

theorem mem_store {key value : Value} {entries : Entries} {entry : Value × Value}
    (h : entry ∈ store key value entries) : entry.2 = value ∨ entry ∈ entries := by
  induction entries with
  | nil =>
    simp only [store, List.mem_singleton] at h
    exact .inl (by rw [h])
  | cons first rest ih =>
    obtain ⟨k, v⟩ := first
    simp only [store] at h
    split at h
    · rcases List.mem_cons.1 h with heq | hrest
      · exact .inl (by rw [heq])
      · exact .inr (List.mem_cons_of_mem _ hrest)
    · rcases List.mem_cons.1 h with heq | hrest
      · exact .inr (by simp [heq])
      · rcases ih hrest with hvalue | hmem
        · exact .inl hvalue
        · exact .inr (List.mem_cons_of_mem _ hmem)

theorem contains_iff_lookup {entries : Entries} (h : ∀ entry ∈ entries, entry.2 ≠ .nil)
    (key : Value) : contains key entries = true ↔ lookup key entries ≠ .nil := by
  induction entries with
  | nil => simp [contains, lookup]
  | cons entry rest ih =>
    obtain ⟨k, v⟩ := entry
    have hv : v ≠ .nil := h (k, v) (List.mem_cons_self ..)
    have ih' := ih (fun entry hentry => h entry (List.mem_cons_of_mem _ hentry))
    cases hk : k.rawEq key with
    | true => simp [contains, lookup, hk, hv]
    | false =>
      simp only [contains, List.any_cons, hk, Bool.false_or, lookup, Bool.false_eq_true, if_false]
      exact ih'

end Entries

/-! ## Well-formed tables -/

namespace Table

structure WellFormed (t : Table) : Prop where
  values : ∀ entry ∈ t.entries, entry.2 ≠ .nil
  keys : ∀ key ∈ Entries.keys t.entries, key.IsKey
  distinct : (Entries.keys t.entries).Pairwise fun a b => a.rawEq b = false

theorem wellFormed_empty (metatable : Option TableId) :
    WellFormed { entries := [], metatable } where
  values := by simp
  keys := by simp [Entries.keys]
  distinct := .nil

theorem WellFormed.of_entries {t u : Table} (h : t.WellFormed) (heq : u.entries = t.entries) :
    u.WellFormed where
  values := heq ▸ h.values
  keys := heq ▸ h.keys
  distinct := heq ▸ h.distinct

namespace WellFormed

variable {t t' : Table}

theorem put (h : t.WellFormed) {key : Value} (hkey : key.IsKey) (value : Value) :
    (t.put key value).WellFormed := by
  by_cases hvalue : value.isNil = true
  · have hentries : (t.put key value).entries = Entries.erase key t.entries := by
      simp [Table.put, hvalue]
    refine ⟨?_, ?_, ?_⟩
    · intro entry hentry
      rw [hentries] at hentry
      exact h.values entry (List.mem_filter.1 hentry).1
    · intro k hk
      rw [hentries, Entries.keys_erase] at hk
      exact h.keys k (List.mem_filter.1 hk).1
    · rw [hentries, Entries.keys_erase]
      exact h.distinct.filter _
  · have hentries : (t.put key value).entries = Entries.store key value t.entries := by
      simp [Table.put, hvalue]
    refine ⟨?_, ?_, ?_⟩
    · intro entry hentry
      rw [hentries] at hentry
      rcases Entries.mem_store hentry with hnew | hold
      · rw [hnew]
        intro hnil
        exact hvalue (by rw [hnil]; rfl)
      · exact h.values entry hold
    · intro k hk
      rw [hentries, Entries.keys_store] at hk
      split at hk
      · exact h.keys k hk
      · rcases List.mem_append.1 hk with hold | hnew
        · exact h.keys k hold
        · rw [List.mem_singleton.1 hnew]
          exact hkey
    · rw [hentries, Entries.keys_store]
      split
      · exact h.distinct
      · rename_i habsent
        -- the key goes behind the others only if it is raw-equal to none of them
        rw [Entries.contains_eq_any] at habsent
        refine List.pairwise_append.2 ⟨h.distinct, List.pairwise_singleton .., ?_⟩
        intro a ha b hb
        rw [List.mem_singleton.1 hb]
        cases hab : a.rawEq key with
        | false => rfl
        | true => exact absurd (List.any_eq_true.2 ⟨a, ha, hab⟩) habsent

theorem set (h : t.WellFormed) {key value : Value} (hset : t.set key value = .ok t') :
    t'.WellFormed := by
  unfold Table.set at hset
  split at hset
  · cases hset
  · rename_i stored hstored
    cases hset
    exact h.put (normalizeKey_ok hstored).2 value

theorem setAt (h : t.WellFormed) (i : Int) (value : Value) : (t.setAt i value).WellFormed :=
  h.put (Value.isKey_integer _) value

theorem stable : Stable WellFormed := fun _ i value h => h.setAt i value

theorem shiftUp (start : Int) (n : Nat) (h : t.WellFormed) : (Table.shiftUp start n t).WellFormed :=
  stable.shiftUp start n h

theorem shiftDown (n : Nat) (start : Int) (h : t.WellFormed) :
    (Table.shiftDown start n t).WellFormed :=
  stable.shiftDown n start h

theorem insertWithin (h : t.WellFormed) {length position : Int64} {value : Value}
    (hins : t.insertWithin length position value = .ok t') : t'.WellFormed :=
  stable.insertWithin h hins

theorem removeAt (h : t.WellFormed) (length position : Int64) :
    (t.removeAt length position).2.WellFormed :=
  stable.removeAt h length position

theorem apply (h : t.WellFormed) {edit : Edit} {results : List Value}
    (hrun : edit.apply t = .ok (results, t')) : t'.WellFormed :=
  stable.apply h (fun _ _ _ hset => h.set hset) hrun

theorem contains_iff (h : t.WellFormed) (key : Value) :
    t.contains key = true ↔ t.get key ≠ .nil := by
  cases hkey : key.isNil with
  | true => simp [Table.contains, Table.get, hkey]
  | false =>
    simp only [Table.contains, Table.get, hkey, Bool.not_false, Bool.true_and, Bool.false_eq_true,
      if_false]
    exact Entries.contains_iff_lookup h.values key

end WellFormed

theorem wellFormed_ofList (values : List Value) : (ofList values).WellFormed :=
  WellFormed.stable.setFrom values 1 (wellFormed_empty none)

end Table
end LuaHost

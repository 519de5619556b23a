import LuaHost.Json.Bridge
import LuaHost.Proofs.Table.Filling

/-!
# LuaHost.Proofs.Table.Enumeration

What is read from a table does not depend on the order of its entries.

* `Table.WellFormed.of_perm`, `Table.WellFormed.get_of_perm`: a permutation of a well-formed table is
  well-formed, and reads as the table. `Table.WellFormed.perm_of_get`: and there are no others.
* `Table.isSequence_of_perm`, `Table.WellFormed.sequence_of_perm`: so it has the same sequence.
* `Table.members_perm`: members change places as their entries do.
-/

namespace LuaHost
namespace Table

variable {t u : Table}

theorem keys_perm (hperm : t.entries.Perm u.entries) :
    (Entries.keys t.entries).Perm (Entries.keys u.entries) :=
  hperm.map Prod.fst

theorem count_of_perm (hperm : t.entries.Perm u.entries) : u.count = t.count := hperm.length_eq.symm

theorem contains_of_perm (hperm : t.entries.Perm u.entries) (key : Value) :
    u.contains key = t.contains key := by
  simp only [contains, Entries.contains_eq_any, (keys_perm hperm).any_eq]

theorem isSequence_of_perm (hperm : t.entries.Perm u.entries) : u.isSequence = t.isSequence := by
  have hcount := count_of_perm hperm
  rw [isSequence, isSequence, hcount, length_congr (fun i => contains_of_perm hperm _) hcount]

namespace WellFormed

theorem of_perm (h : t.WellFormed) (hperm : t.entries.Perm u.entries) : u.WellFormed where
  values entry hentry := h.values entry (hperm.mem_iff.2 hentry)
  keys key hkey := h.keys key ((keys_perm hperm).mem_iff.2 hkey)
  distinct := by
    refine (keys_perm hperm).pairwise h.distinct fun {a b} hab => ?_
    rwa [Value.rawEq_comm]

theorem get_of_perm (h : t.WellFormed) (hperm : t.entries.Perm u.entries) (key : Value) :
    u.get key = t.get key := by
  have hu := h.of_perm hperm
  have hcontains := contains_of_perm hperm key
  by_cases hpresent : t.contains key = true
  · -- both find the value at the one key that is raw-equal to the given one
    obtain ⟨_, hany⟩ := Bool.and_eq_true_iff.1 hpresent
    rw [Entries.contains_eq_any] at hany
    obtain ⟨k, hk, heq⟩ := List.any_eq_true.1 hany
    obtain ⟨⟨k, v⟩, hentry, rfl⟩ := List.mem_map.1 hk
    rw [← t.get_congr heq, ← u.get_congr heq, h.get_of_mem hentry,
      hu.get_of_mem (hperm.mem_iff.1 hentry)]
  · have habsent : t.get key = .nil := by
      by_contra hvalue
      exact hpresent ((h.contains_iff key).2 hvalue)
    have habsent' : u.get key = .nil := by
      by_contra hvalue
      exact hpresent (hcontains ▸ (hu.contains_iff key).2 hvalue)
    rw [habsent, habsent']

/-- The entries are the keys in stored form at which something is read, each with what is read there. -/
theorem mem_entries_iff (h : t.WellFormed) {key value : Value} :
    (key, value) ∈ t.entries ↔ key.IsKey ∧ value ≠ .nil ∧ t.get key = value := by
  constructor
  · intro hmem
    exact ⟨h.keys key (List.mem_map_of_mem hmem), h.values _ hmem, h.get_of_mem hmem⟩
  · rintro ⟨hkey, hvalue, hget⟩
    have hpresent : t.contains key = true := (h.contains_iff key).2 (hget ▸ hvalue)
    obtain ⟨⟨k, v⟩, hentry, rfl⟩ := List.mem_map.1 ((h.contains_iff_mem hkey).1 hpresent)
    rwa [← hget, h.get_of_mem hentry]

/-- Well-formed tables that read alike differ only in the order of their entries. -/
theorem perm_of_get (h : t.WellFormed) (hu : u.WellFormed) (hget : ∀ key, t.get key = u.get key) :
    t.entries.Perm u.entries := by
  rw [List.perm_ext_iff_of_nodup h.nodup_keys.of_map hu.nodup_keys.of_map]
  rintro ⟨key, value⟩
  rw [h.mem_entries_iff, hu.mem_entries_iff, hget]

theorem sequence_of_perm (h : t.WellFormed) (hperm : t.entries.Perm u.entries) :
    u.sequence = t.sequence :=
  sequence_congr (fun _ => h.get_of_perm hperm _) (count_of_perm hperm)

end WellFormed

theorem members_perm (hperm : t.entries.Perm u.entries) : t.members.Perm u.members :=
  hperm.filterMap _

end Table
end LuaHost

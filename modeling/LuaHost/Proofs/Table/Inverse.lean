import LuaHost.Proofs.Table.Enumeration
import LuaHost.Proofs.Table.Shifting

/-!
# LuaHost.Proofs.Table.Inverse

Insertion and removal undo each other, whatever the length they go by.

* `Table.Restored`: a table with the entries of another, up to their order.
* `Table.get_of_inserted_removed`, `Table.get_of_removed_inserted`: the two shifts, one after the other.
* `Table.insertion_inverse_removal`: both ways round, on every table.
-/

namespace LuaHost.Table

/-- The second table is the first again: it has the same metatable and reads alike at every key. So no
entry has come or gone, and only their order can differ. -/
structure Restored (t u : Table) : Prop where
  metatable : u.metatable = t.metatable
  get : ∀ key, u.get key = t.get key
  entries : t.WellFormed → u.entries.Perm t.entries

section Shifts

variable {t t' t'' : Table} {length position : Int}

theorem get_of_inserted_removed {value : Value} (hins : Inserted t t' length position value)
    (hrem : Removed t' t'' (length + 1) position) (habsent : t.getAt (length + 1) = .nil)
    (key : Value) : t''.get key = t.get key := by
  rcases key.outside_or position (length + 1) with hout | ⟨k, hlow, hhigh, hk⟩
  · rw [hrem.other key hout, hins.other key hout]
  · rw [t''.get_congr hk, t.get_congr hk]
    show t''.getAt k = t.getAt k
    rcases Int.lt_or_le length k with hlast | hwithin
    · obtain rfl : k = length + 1 := by omega
      rw [habsent]
      exact get_of_not_contains hrem.last
    · rw [hrem.moved k hlow (by omega), hins.moved k hlow hwithin]

theorem get_of_removed_inserted (hrem : Removed t t' length position)
    (hins : Inserted t' t'' (length - 1) position (t.getAt position)) (key : Value) :
    t''.get key = t.get key := by
  have hother := hins.other key
  rw [show length - 1 + 1 = length by omega] at hother
  rcases key.outside_or position length with hout | ⟨k, hlow, hhigh, hk⟩
  · rw [hother hout, hrem.other key hout]
  · rw [t''.get_congr hk, t.get_congr hk]
    show t''.getAt k = t.getAt k
    rcases Int.lt_or_eq_of_le hlow with hbehind | rfl
    · have hup := hins.moved (k - 1) (by omega) (by omega)
      have hdown := hrem.moved (k - 1) (by omega) (by omega)
      rw [show k - 1 + 1 = k by omega] at hup hdown
      rw [hup, hdown]
    · exact hins.here

end Shifts

/-! ## Both ways round -/

section Inverse

variable {length position : Int64}

theorem Insertable.toInt_add_one (h : Insertable length position) :
    (length + 1).toInt = length.toInt + 1 := by
  have hlast := h.lt
  have hfirst := length.le_toInt
  have hone : Int64.toInt 1 = 1 := rfl
  simp only [Nat.pow_eq] at hlast
  rw [Int64.toInt_add, hone]
  exact Int.bmod_eq_of_le (by omega) (by omega)

theorem Removable.toInt_sub_one (h : Removable length position) :
    (length - 1).toInt = length.toInt - 1 := by
  obtain ⟨hlow, hhigh⟩ := h
  have hlast := length.toInt_lt
  have hone : Int64.toInt 1 = 1 := rfl
  rw [Int64.toInt_sub, hone]
  exact Int.bmod_eq_of_le (by omega) (by omega)

theorem Insertable.removable (h : Insertable length position) : Removable (length + 1) position := by
  have hnext := h.toInt_add_one
  obtain ⟨-, hlow, hhigh⟩ := h
  exact ⟨hlow, by omega⟩

theorem Removable.insertable (h : Removable length position) : Insertable (length - 1) position := by
  have hbefore := h.toInt_sub_one
  obtain ⟨hlow, hhigh⟩ := h
  have hlast := length.toInt_lt
  refine ⟨?_, hlow, by omega⟩
  intro hmax
  rw [hmax, Int64.toInt_maxValue] at hbefore
  omega

end Inverse

/-- **Insertion and removal undo each other.** On every table, with holes or without, and for every
length and position: removal takes a value out again that insertion has put in, nil included, where the
key past the length was absent, and insertion puts back what removal has taken out. Both times the
table is the one it was, entry for entry. -/
theorem insertion_inverse_removal (t : Table) (length position : Int64) :
    (∀ value, Insertable length position → t.containsAt (length.toInt + 1) = false →
      ∃ t' t'', t.insertWithin length position value = .ok t' ∧
        t'.removeWithin (length + 1) (some position) = .ok (value, t'') ∧ t.Restored t'') ∧
    (Removable length position →
      ∃ value t' t'', t.removeWithin length (some position) = .ok (value, t') ∧
        t'.insertWithin (length - 1) position value = .ok t'' ∧ t.Restored t'') := by
  refine ⟨?_, ?_⟩
  · intro value h habsent
    obtain ⟨n, -, hrun⟩ := insertWithin_of_insertable t value h
    have hins := inserted_of_insertWithin h hrun
    generalize (shiftUp position.toInt n t).setAt position.toInt value = t' at hrun hins
    have hrem := removed_removeAt t' h.removable
    rw [h.toInt_add_one] at hrem
    have hget := get_of_inserted_removed hins hrem (get_of_not_contains habsent)
    refine ⟨t', _, hrun, ?_, hrem.metatable.trans hins.metatable, hget, fun hwf => ?_⟩
    · rw [removeWithin_of_removable t' (some position) h.removable, ← hins.here]
      rfl
    · exact ((hwf.insertWithin hrun).removeAt _ _).perm_of_get hwf hget
  · intro h
    have hrem := removed_removeAt t h
    obtain ⟨n, -, hrun⟩ := insertWithin_of_insertable (t.removeAt length position).2
      (t.getAt position.toInt) h.insertable
    have hins := inserted_of_insertWithin h.insertable hrun
    rw [h.toInt_sub_one] at hins
    have hget := get_of_removed_inserted hrem hins
    refine ⟨_, _, _, removeWithin_of_removable t (some position) h, hrun,
      hins.metatable.trans hrem.metatable, hget, fun hwf => ?_⟩
    exact ((hwf.removeAt _ _).insertWithin hrun).perm_of_get hwf hget

/-- A table with a hole at 3, and one of its lengths on either side of the hole. -/
theorem insertion_inverse_removal_holed :
    let t := ofList [.string "a", .string "b", .nil, .string "d"]
    (Insertable 2 1 ∧ t.containsAt (Int64.toInt 2 + 1) = false ∧
      ∃ t' t'', t.insertWithin 2 1 .nil = .ok t' ∧
        t'.removeWithin (2 + 1) (some 1) = .ok (.nil, t'') ∧ t.Restored t'') ∧
    (Removable 4 3 ∧
      ∃ value t' t'', t.removeWithin 4 (some 3) = .ok (value, t') ∧
        t'.insertWithin (4 - 1) 3 value = .ok t'' ∧ t.Restored t'') := by
  intro t
  have hins : Insertable 2 1 := ⟨by decide, by decide, by decide⟩
  have hrem : Removable 4 3 := ⟨by decide, by decide⟩
  have habsent : t.containsAt (Int64.toInt 2 + 1) = false := rfl
  exact ⟨⟨hins, habsent, (insertion_inverse_removal t 2 1).1 .nil hins habsent⟩,
    hrem, (insertion_inverse_removal t 4 3).2 hrem⟩

end LuaHost.Table

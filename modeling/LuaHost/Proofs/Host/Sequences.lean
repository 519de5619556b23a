import LuaHost.Proofs.Host.Run
import LuaHost.Proofs.Table.Border

/-!
# LuaHost.Proofs.Host.Sequences

Sequences in the tables of a running host: how long they are, what they list, and what clearing them
leaves.

* `sequence_after`: the loops over the sequence of every table that a run from the empty world can leave,
  and of every table that is filled from a list.
-/

namespace LuaHost

theorem room_of_lt_maxValue {n : Nat} (h : (n : Int) < Int64.maxValue.toInt) :
    n + 1 < Nat.pow 2 63 := by
  rw [Int64.toInt_maxValue] at h
  simp only [Nat.pow_eq]
  omega

/-- **The loops over a sequence find one border.** In every table that a run can leave, with fewer
entries than the greatest integer, all of them stop after the same `n` keys, and none overflows before.
It is the only number up to which all positive integers are keys, and no further. The sequence lists
what is read at these keys, none of it nil. There are at least as many entries, and as many exactly if
every key is an integer among `1, …, n`. Clearing removes the entries at these keys and no others.

No position overflows when a table is filled from a list that is no longer than the greatest integer.
It has the values that are not nil at their positions, counted from 1, and no other entries, and its
sequence is as much of the list as there is before the first nil. -/
theorem sequence_after :
    (∀ (depth : Nat) (steps : List Step) (t : TableId),
      let table := (World.after depth {} steps).heap.table t
      let cleared := table.clearSequence
      (table.count : Int) < Int64.maxValue.toInt →
      ∃ n : Nat, table.rawLength.toInt = n ∧ (∀ m, table.BorderAt m ↔ m = n) ∧
        (∀ bound, n < bound →
          table.countChecked 1 bound 0 = some table.rawLength ∧
          table.collectChecked bound 0 = some table.sequence ∧
          Table.clearChecked bound 1 table = some cleared) ∧
        table.sequence = (positions n).map table.get ∧ (∀ v ∈ table.sequence, v ≠ .nil) ∧
        n ≤ table.count ∧ (table.isSequence = true ↔ n = table.count) ∧
        (n = table.count ↔ ∀ key ∈ Entries.keys table.entries,
          ∃ i : Int64, key = .integer i ∧ 1 ≤ i.toInt ∧ i.toInt ≤ n) ∧
        cleared.entries = table.entries.filter (fun entry => entry.1 ∉ positions n) ∧
        cleared.count + n = table.count ∧ cleared.rawLength = 0 ∧
        cleared.metatable = table.metatable) ∧
    (∀ values : List Value, (values.length : Int) ≤ Int64.maxValue.toInt →
      Table.fillChecked 0 values {} = some (Table.ofList values) ∧
      (∀ key value, (key, value) ∈ (Table.ofList values).entries ↔ ∃ (i : Int64) (k : Nat),
        key = .integer i ∧ i.toInt = k + 1 ∧ values[k]? = some value ∧ value ≠ .nil) ∧
      (Table.ofList values).count = (values.filter (!·.isNil)).length ∧
      (Table.ofList values).sequence = values.takeWhile (!·.isNil)) := by
  refine ⟨?_, ?_⟩
  · intro depth steps t table cleared hcount
    have hroom := room_of_lt_maxValue hcount
    have h : table.WellFormed := World.wellFormed_after depth steps t
    have hfits : table.Fits := Nat.lt_of_succ_lt hroom
    have hclears := h.clears hroom
    refine ⟨table.length, Table.toInt_rawLength hfits, h.borderAt_iff hroom, fun bound hbound => ?_,
      h.sequence_eq_map, fun v => h.ne_nil_of_mem_sequence, table.length_le_count, beq_iff_eq,
      h.length_eq_count_iff_keys hfits, h.entries_clearSequence hroom, hclears.count h,
      ?_, ?_⟩
    · exact ⟨h.countChecked_eq hroom hbound, h.collectChecked_eq hroom hbound,
        hclears.clearChecked_eq hbound⟩
    · exact congrArg Int64.ofNat (h.length_clearSequence hroom)
    · exact (Table.stable_metatable _).clearFrom table.count 1 rfl
  · intro values hlength
    have hvalues : values.length < Nat.pow 2 63 := by
      rw [Int64.toInt_maxValue] at hlength
      simp only [Nat.pow_eq]
      omega
    have hfill := @Table.fillChecked_eq values 0 (by omega) {}
    exact ⟨hfill, fun key value => Table.mem_entries_ofList_iff hvalues, Table.count_ofList hvalues,
      Table.sequence_ofList hvalues⟩

/-- A table with the keys 1, 2, a hole at 3, and 4, and with zero, a negative integer, the greatest
one, a float and a string as keys. -/
def sparseRun : List Step := [
  .request (.newTable [.integer 10, .integer 20, .nil, .integer 40]),
  .request (.editTable ⟨0⟩ (.set (.integer 0) (.string "zero"))),
  .request (.editTable ⟨0⟩ (.set (.integer (-1)) (.string "negative"))),
  .request (.editTable ⟨0⟩ (.set (.integer Int64.maxValue) (.string "greatest"))),
  .request (.editTable ⟨0⟩ (.set (.float ⟨0x3FF8000000000000⟩) (.string "float"))),
  .request (.editTable ⟨0⟩ (.set (.string "name") (.boolean true)))]

theorem sequence_after_sparseRun :
    let table := (World.after 1 {} sparseRun).heap.table ⟨0⟩
    (table.count : Int) < Int64.maxValue.toInt ∧ table.rawLength = 2 ∧
    (∀ m, table.BorderAt m ↔ m = 2) ∧ table.sequence = [.integer 10, .integer 20] ∧
    table.countChecked 1 3 0 = some 2 ∧ table.isSequence = false ∧
    table.clearSequence.entries = [
      (.integer 4, .integer 40), (.integer 0, .string "zero"), (.integer (-1), .string "negative"),
      (.integer Int64.maxValue, .string "greatest"),
      (.float ⟨0x3FF8000000000000⟩, .string "float"), (.string "name", .boolean true)] ∧
    (Table.ofList [.integer 10, .nil, .integer 30]).sequence = [.integer 10] := by
  intro table
  have hcount : (table.count : Int) < Int64.maxValue.toInt := by decide
  obtain ⟨n, hraw, hborder, hloops, -⟩ := sequence_after.1 1 sparseRun ⟨0⟩ hcount
  have htwo : table.rawLength = 2 := rfl
  have hn : n = 2 := by
    have hint : Int64.toInt 2 = 2 := rfl
    rw [htwo, hint] at hraw
    omega
  subst hn
  have hlist := (sequence_after.2 [.integer 10, .nil, .integer 30] (by decide)).2.2.2
  exact ⟨hcount, htwo, hborder, rfl, (hloops 3 (by decide)).1, rfl, rfl, hlist⟩

end LuaHost

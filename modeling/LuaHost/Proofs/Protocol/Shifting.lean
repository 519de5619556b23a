import LuaHost.Proofs.Protocol.Unmediated
import LuaHost.Proofs.Table.Shifting

/-!
# LuaHost.Proofs.Protocol.Shifting

Insertion and removal in place, for the raw length of a table and for any length that its metatable
reports.

* `insertion_shifts`: where insertion takes every entry, and when it is refused.
* `removal_shifts`: the same for removal.
-/

namespace LuaHost

open Operation

theorem editing_of_ok {α : Type} {t : TableId} {edit : Table → Except Error (α × Table)} {w : World}
    {a : α} {table : Table} (h : edit (w.heap.table t) = .ok (a, table)) :
    editing t edit w = (.ok a, { w with heap := w.heap.setTable t table }) := by
  rw [editing, h]

theorem editing_of_error {α : Type} {t : TableId} {edit : Table → Except Error (α × Table)}
    {w : World} {e : Error} (h : edit (w.heap.table t) = .error e) :
    editing t edit w = (.error e, w) := by
  rw [editing, h]

/-- **Insertion moves what is behind the position up by one.** Take any table and any length, whether
or not the table has as many elements. Insertion is refused for the greatest integer as length, and for
positions that are not among `1, …, length + 1`; the world is then left as it was. Otherwise the value
is at the position afterwards, each key from the position to the length has passed on to the next one
what it held, holes included, and all other keys, of whatever type, hold what they did. No index of the
loop leaves the 64-bit integers. With the length of the table's own sequence no entry is lost, and
there is one more where the value is not nil. Insertion through the metatable goes by the length that
is reported there. -/
theorem insertion_shifts (invoke : Invoke) (w : World) (t : TableId) (length position : Int64)
    (value : Value) :
    let table := w.heap.table t
    let run := editing t (fun table => (table.insertWithin length position value).map ((), ·)) w
    (¬ Table.Insertable length position →
      run = (.error (.positionOutOfBounds .insert position), w)) ∧
    (Table.Insertable length position → ∃ table',
      run = (.ok (), { w with heap := w.heap.setTable t table' }) ∧
      table.Inserted table' length.toInt position.toInt value ∧
      table.insertChecked length position value = some table') ∧
    (table.WellFormed → table.Fits → ∀ table', table.insert position value = .ok table' →
      table.Inserted table' table.rawLength.toInt position.toInt value ∧
      (∀ key, table.contains key = true →
        key.Outside position.toInt table.rawLength.toInt → table'.get key = table.get key) ∧
      (value ≠ .nil → table'.count = table.count + 1)) ∧
    (∀ given w₀, lengthInteger invoke (.table t) w₀ = (.ok length, w) →
      given.getD (endPosition length) = position → tableInsert invoke t given value w₀ = run) := by
  intro table run
  refine ⟨?_, ?_, ?_, ?_⟩
  · intro h
    refine editing_of_error ?_
    rw [Table.insertWithin_of_not_insertable h]
    rfl
  · intro h
    obtain ⟨n, -, hins⟩ := Table.insertWithin_of_insertable table value h
    refine ⟨_, editing_of_ok ?_, Table.inserted_of_insertWithin h hins,
      Table.insertChecked_eq h hins⟩
    show (table.insertWithin length position value).map _ = _
    rw [hins]
    rfl
  · intro hwf hfits table' hins
    have h : Table.Insertable table.rawLength position := Table.insertable_of_insertWithin hins
    have hinserted := Table.inserted_of_insertWithin h hins
    have habsent := hwf.absent_past_rawLength hfits h
    refine ⟨hinserted, ?_, ?_⟩
    · intro key hpresent hkey
      refine hinserted.other key fun i hlow hhigh => ?_
      rcases Int.lt_or_le table.rawLength.toInt i with hpast | hwithin
      · -- the key past the sequence is not among the entries
        obtain rfl : i = table.rawLength.toInt + 1 := by omega
        rw [← Bool.not_eq_true]
        intro heq
        rw [table.contains_congr heq] at hpresent
        rw [Table.containsAt, hpresent] at habsent
        cases habsent
      · exact hkey i hlow hwithin
    · intro hvalue
      have hcount := hwf.count_insertWithin h hins
      rw [hwf.occupancy_getAt, habsent, Value.occupancy_of_ne_nil hvalue] at hcount
      exact hcount
  · rintro given w₀ hlength rfl
    exact tableInsert_of_length hlength given value

/-- Table 0 has a hole at 3, and its metatable, table 1, reports the length 3. -/
def measuredWorld : World where
  heap :=
    { tables := ⟨#[
        { entries := [(.integer 1, .string "a"), (.integer 2, .string "b"), (.integer 4, .string "d")],
          metatable := some ⟨1⟩ },
        { entries := [(.string "__len", .function ⟨0⟩)] }]⟩
      functions := ⟨#[.host (HostFunction.constant [.integer 3])]⟩ }

theorem wellFormed_measuredWorld : (measuredWorld.heap.table ⟨0⟩).WellFormed :=
  (Table.wellFormed_ofList [.string "a", .string "b", .nil, .string "d"]).of_entries rfl

theorem insertion_shifts_measured :
    let table := measuredWorld.heap.table ⟨0⟩
    let w := (lengthInteger invoke (.table ⟨0⟩) measuredWorld).2
    (¬ Table.Insertable 3 5 ∧
      editing ⟨0⟩ (fun table => (table.insertWithin 3 5 (.string "x")).map ((), ·)) measuredWorld =
        (.error (.positionOutOfBounds .insert 5), measuredWorld)) ∧
    (Table.Insertable 3 2 ∧ lengthInteger invoke (.table ⟨0⟩) measuredWorld = (.ok 3, w) ∧
      ∃ table', tableInsert invoke ⟨0⟩ (some 2) (.string "x") measuredWorld =
          (.ok (), { w with heap := w.heap.setTable ⟨0⟩ table' }) ∧
        table'.getAt 3 = .string "b" ∧ table'.getAt 4 = .nil) ∧
    (table.WellFormed ∧ table.Fits ∧ ∃ table', table.insert 2 (.string "x") = .ok table' ∧
      table'.getAt 3 = .string "b" ∧ table'.getAt 4 = .string "d" ∧ table'.count = 4) := by
  intro table w
  have hrefused : ¬ Table.Insertable 3 5 := by
    rintro ⟨-, -, hhigh⟩
    exact absurd hhigh (by decide)
  have hfits : Table.Insertable 3 2 := ⟨by decide, by decide, by decide⟩
  have hlength : lengthInteger invoke (.table ⟨0⟩) measuredWorld = (.ok 3, w) := rfl
  refine ⟨⟨hrefused, ?_⟩, ⟨hfits, hlength, ?_⟩, wellFormed_measuredWorld, by decide, ?_⟩
  · exact (insertion_shifts invoke measuredWorld ⟨0⟩ 3 5 (.string "x")).1 hrefused
  · obtain ⟨-, hmoves, -, hreported⟩ := insertion_shifts invoke w ⟨0⟩ 3 2 (.string "x")
    obtain ⟨table', hrun, hinserted, -⟩ := hmoves hfits
    refine ⟨table', (hreported (some 2) measuredWorld hlength rfl).trans hrun, ?_, ?_⟩
    · exact (hinserted.moved 2 (by decide) (by decide)).trans rfl
    · exact (hinserted.moved 3 (by decide) (by decide)).trans rfl
  · obtain ⟨-, -, hraw, -⟩ := insertion_shifts invoke measuredWorld ⟨0⟩ 3 2 (.string "x")
    obtain ⟨hinserted, hkept, hcount⟩ := hraw wellFormed_measuredWorld (by decide) _ rfl
    refine ⟨_, rfl, ?_, ?_, hcount (by decide)⟩
    · exact (hinserted.moved 2 (by decide) (by decide)).trans rfl
    · have hout : (Value.integer (Int64.ofInt 4)).Outside 2 2 :=
        Value.integer_outside (by decide) (by decide) (by decide) (by decide) (.inr (by decide))
      exact hkept (.integer 4) rfl hout

/-- **Removal moves what is behind the position down by one.** Take any table and any length, whether
or not the table has as many elements. Removal is refused for positions that are not among
`1, …, length`, and the world is then left as it was; without a position, and with nothing to remove, it
gives nil and every table reads as it did. Otherwise it gives what the position, or else the length,
held; each key from there on has taken over what the next one held, holes included, the key at the
length is absent, and all other keys, of whatever type, hold what they did. No index of the loop leaves
the 64-bit integers. With the length of the table's own sequence that length goes down by one, and
there is one entry less. Removal through the metatable goes by the length that is reported there. -/
theorem removal_shifts (invoke : Invoke) (w : World) (t : TableId) (length : Int64)
    (given : Option Int64) :
    let table := w.heap.table t
    let run := editing t (·.removeWithin length given) w
    let position := given.getD length
    (∀ p, given = some p → ¬ Table.Removable length p →
      run = (.error (.positionOutOfBounds .remove p), w)) ∧
    (given = none → length.toInt ≤ 0 →
      run = (.ok .nil, { w with heap := w.heap.setTable t table }) ∧
      ∀ u, (w.heap.setTable t table).table u = w.heap.table u) ∧
    (Table.Removable length position → ∃ table',
      run = (.ok (table.getAt position.toInt), { w with heap := w.heap.setTable t table' }) ∧
      table.Removed table' length.toInt position.toInt ∧
      table.removeChecked length position = some table') ∧
    (table.WellFormed → table.Fits → ∀ removed table',
      table.remove given = .ok (removed, table') → 0 < table.rawLength.toInt →
      table'.rawLength.toInt = table.rawLength.toInt - 1 ∧ table'.count + 1 = table.count) ∧
    (∀ w₀, lengthInteger invoke (.table t) w₀ = (.ok length, w) →
      tableRemove invoke t given w₀ = run) := by
  intro table run position
  refine ⟨?_, ?_, ?_, ?_, ?_⟩
  · rintro p rfl h
    exact editing_of_error (Table.removeWithin_of_not_removable h)
  · rintro rfl h
    refine ⟨editing_of_ok (if_pos h), fun u => ?_⟩
    by_cases hu : u = t
    · rw [hu]
      exact w.heap.table_setTable_same t table
    · exact w.heap.table_setTable_other table hu
  · intro h
    exact ⟨_, editing_of_ok (table.removeWithin_of_removable given h), table.removed_removeAt h,
      table.removeChecked_eq h⟩
  · intro hwf hfits removed table' hrem hpos
    exact hwf.rawLength_remove hfits hrem hpos
  · intro w₀ hlength
    exact tableRemove_of_length hlength given

theorem removal_shifts_measured :
    let table := measuredWorld.heap.table ⟨0⟩
    let w := (lengthInteger invoke (.table ⟨0⟩) measuredWorld).2
    (¬ Table.Removable 3 4 ∧ editing ⟨0⟩ (·.removeWithin 3 (some 4)) measuredWorld =
      (.error (.positionOutOfBounds .remove 4), measuredWorld)) ∧
    editing ⟨0⟩ (·.removeWithin 0 none) measuredWorld = (.ok .nil, measuredWorld) ∧
    (Table.Removable 3 1 ∧ lengthInteger invoke (.table ⟨0⟩) measuredWorld = (.ok 3, w) ∧
      ∃ table', tableRemove invoke ⟨0⟩ (some 1) measuredWorld =
          (.ok (.string "a"), { w with heap := w.heap.setTable ⟨0⟩ table' }) ∧
        table'.getAt 1 = .string "b" ∧ table'.getAt 2 = .nil ∧ table'.containsAt 3 = false) ∧
    (table.WellFormed ∧ table.Fits ∧ 0 < table.rawLength.toInt ∧ ∃ table',
      table.remove none = .ok (.string "b", table') ∧ table'.rawLength.toInt = 1 ∧
      table'.count = 2) := by
  intro table w
  have hrefused : ¬ Table.Removable 3 4 := by
    rintro ⟨-, hhigh⟩
    exact absurd hhigh (by decide)
  have hwithin : Table.Removable 3 1 := ⟨by decide, by decide⟩
  have hlength : lengthInteger invoke (.table ⟨0⟩) measuredWorld = (.ok 3, w) := rfl
  refine ⟨⟨hrefused, ?_⟩, ?_, ⟨hwithin, hlength, ?_⟩, wellFormed_measuredWorld, by decide, by decide,
    ?_⟩
  · exact (removal_shifts invoke measuredWorld ⟨0⟩ 3 (some 4)).1 4 rfl hrefused
  · exact ((removal_shifts invoke measuredWorld ⟨0⟩ 0 none).2.1 rfl (by decide)).1
  · obtain ⟨-, -, hmoves, -, hreported⟩ := removal_shifts invoke w ⟨0⟩ 3 (some 1)
    obtain ⟨table', hrun, hremoved, -⟩ := hmoves hwithin
    refine ⟨table', (hreported measuredWorld hlength).trans hrun, ?_, ?_, hremoved.last⟩
    · exact (hremoved.moved 1 (by decide) (by decide)).trans rfl
    · exact (hremoved.moved 2 (by decide) (by decide)).trans rfl
  · obtain ⟨-, -, -, hraw, -⟩ := removal_shifts invoke measuredWorld ⟨0⟩ 3 none
    obtain ⟨hlength, hcount⟩ := hraw wellFormed_measuredWorld (by decide) _ _ rfl (by decide)
    exact ⟨_, rfl, hlength, Nat.succ.inj hcount⟩

end LuaHost

import LuaHost.Proofs.Host.Run
import LuaHost.Proofs.Protocol.Assigning
import LuaHost.Proofs.Table.Assignment

/-!
# LuaHost.Proofs.Host.RawAssignment

Raw tables of a running host are finite maps, up to raw equality of their keys.

* `rawSet_refused`, `rawSet_stored`: raw assignment with a key that is refused, and with any other.
* `rawSet_after`: what it changes in every table that a run from the empty world can leave.
-/

namespace LuaHost

theorem rawSet_refused {t : TableId} {key value : Value} {w : World} {e : Error}
    (h : (w.heap.table t).set key value = .error e) : rawSet t key value w = (.error e, w) := by
  rw [rawSet_run, h]

theorem rawSet_stored {t : TableId} {key value : Value} {w : World} {table : Table}
    (h : (w.heap.table t).set key value = .ok table) :
    rawSet t key value w = (.ok (), { w with heap := w.heap.setTable t table }) := by
  rw [rawSet_run, h]

theorem rawSet_congr {key other : Value} (h : key.rawEq other = true) (t : TableId)
    (value : Value) (w : World) : rawSet t key value w = rawSet t other value w := by
  rw [rawSet_run, rawSet_run, Table.set_congr _ h]

/-- **Raw tables are finite maps.** In the world that any run leaves, raw assignment to a table fails
exactly for nil and for NaN, whatever the value, and then leaves the world as it was. With any other
key it succeeds: the keys that are raw-equal to the given one read the value, all other keys read
what they did, the number of entries follows from whether the key was present and the value is nil,
and nothing else in the heap changes. Raw-equal keys, of whichever number subtypes, are one key for
both reading and assigning; access by integer and by name is access by the value; and nil and NaN
read as nil. -/
theorem rawSet_after (depth : Nat) (steps : List Step) (t : TableId) (key value : Value) :
    let w := World.after depth {} steps
    let table := w.heap.table t
    let run := rawSet t key value w
    let table' := run.2.heap.table t
    (key = .nil → run = (.error .nilIndex, w)) ∧
    (key.isNaN = true → run = (.error .nanIndex, w)) ∧
    (key ≠ .nil → key.isNaN = false →
      run.1 = .ok () ∧
      (∀ other, table'.get other = if key.rawEq other then value else table.get other) ∧
      table'.count + (if table.contains key then 1 else 0) =
        table.count + (if value.isNil then 0 else 1) ∧
      w.heap.SameBut run.2.heap t key) ∧
    (∀ other, key.rawEq other = true →
      table.get key = table.get other ∧ run = rawSet t other value w) ∧
    (∀ (i : Int64) (other : Value), other.rawEq (.integer i) = true →
      table.get other = table.getAt i.toInt ∧
      table.set other value = .ok (table.setAt i.toInt value)) ∧
    (∀ name, table.getString name = table.get (.string name)) ∧
    table.get .nil = .nil ∧ (key.isNaN = true → table.get key = .nil) := by
  intro w table run table'
  have hwf : table.WellFormed := World.wellFormed_after depth steps t
  refine ⟨?_, ?_, ?_, ?_, ?_, fun _ => rfl, rfl, table.get_of_isNaN⟩
  · intro hnil
    exact rawSet_refused (hnil ▸ table.set_of_nil value)
  · intro hnan
    exact rawSet_refused (table.set_of_isNaN hnan value)
  · intro hnil hnan
    obtain ⟨stored, _, hset⟩ := table.exists_set hnil hnan value
    have hrun : run = (.ok (), { w with heap := w.heap.setTable t (table.put stored value) }) :=
      rawSet_stored hset
    have htable : table' = table.put stored value := by
      show run.2.heap.table t = _
      rw [hrun]
      exact w.heap.table_setTable_same t _
    rw [htable, hrun]
    exact ⟨rfl, Table.get_set hset, hwf.count_set hset, Heap.sameBut_set hset⟩
  · intro other hother
    exact ⟨table.get_congr hother, rawSet_congr hother t value w⟩
  · intro i other hother
    refine ⟨?_, ?_⟩
    · rw [table.getAt_toInt]
      exact table.get_congr hother
    · rw [table.set_congr hother]
      exact table.set_integer i value

end LuaHost

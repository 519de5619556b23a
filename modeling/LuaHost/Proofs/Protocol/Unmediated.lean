import LuaHost.Host.Invoke
import LuaHost.Proofs.Protocol.Assigning
import LuaHost.Proofs.Protocol.Reading
import LuaHost.Proofs.Table.Sequence

/-!
# LuaHost.Proofs.Protocol.Unmediated

The protocol on a table whose metatable has nothing to say.

* `Heap.Lacks`: a table without a metatable, or with one that lacks a field.
* `editing`: a raw change of one table, in place.
* `tableInsert_of_length`, `tableRemove_of_length`: shifting is such a change, for the reported length.
* `Table.insertWithin_endPosition`: insertion at the end is appending.
* `operations_of_lacks`: every operation of the protocol is the raw operation on the table, where the
  field that it would ask for is lacking.
-/

namespace LuaHost

open Operation

/-! ## Tables without a field -/

/-- The table has no metatable, or one that does not hold the field. -/
def Heap.Lacks (h : Heap) (t : TableId) (field : Metafield) : Prop :=
  ∀ m, (h.table t).metatable = some m → (h.table m).getString field.name = .nil

theorem Heap.Lacks.metafield {h : Heap} {t : TableId} {field : Metafield} (hlacks : h.Lacks t field) :
    h.metafield (.table t) field.name = .nil := by
  rw [Heap.metafield]
  split
  · rename_i m hm
    exact hlacks m hm
  · rfl

/-! ## Raw operations -/

/-- A raw change of one table, in place. A refused change leaves the world as it was. -/
def editing {α : Type} (t : TableId) (edit : Table → Except Error (α × Table)) : Operation α :=
  fun w =>
    match edit (w.heap.table t) with
    | .ok (a, table) => (.ok a, { w with heap := w.heap.setTable t table })
    | .error e => (.error e, w)

theorem editing_congr {α : Type} {t : TableId} {edit edit' : Table → Except Error (α × Table)}
    {w : World} (h : edit (w.heap.table t) = edit' (w.heap.table t)) :
    editing t edit w = editing t edit' w := by
  rw [editing, h, editing]

theorem rawSet_eq_editing (t : TableId) (key value : Value) :
    rawSet t key value = editing t fun table => (table.set key value).map ((), ·) := by
  funext w
  rw [rawSet_run, editing]
  cases (w.heap.table t).set key value with
  | ok table => rfl
  | error e => rfl

namespace Table

theorem fits_of_lt_maxValue {t : Table} (h : (t.count : Int) < Int64.maxValue.toInt) : t.Fits := by
  rw [Int64.toInt_maxValue] at h
  simp only [Fits, Nat.pow_eq]
  omega

theorem toInt_endPosition {t : Table} (h : (t.count : Int) < Int64.maxValue.toInt) :
    t.rawLength ≠ Int64.maxValue ∧ (endPosition t.rawLength).toInt = t.length + 1 := by
  have hlength := t.length_le_count
  have hraw := toInt_rawLength (fits_of_lt_maxValue h)
  have hne : t.rawLength ≠ Int64.maxValue := by
    intro heq
    rw [heq] at hraw
    omega
  refine ⟨hne, ?_⟩
  rw [Int64.toInt_maxValue] at h
  have hone : Int64.toInt 1 = 1 := rfl
  rw [endPosition, if_neg hne, Int64.toInt_add, hraw, hone]
  exact Int.bmod_eq_of_le (by omega) (by omega)

theorem insertWithin_endPosition {t : Table} (h : (t.count : Int) < Int64.maxValue.toInt)
    (value : Value) :
    t.insertWithin t.rawLength (endPosition t.rawLength) value = .ok (t.append value) := by
  obtain ⟨hne, hend⟩ := toInt_endPosition h
  rw [insertWithin, hend, toInt_rawLength (fits_of_lt_maxValue h), if_pos ⟨hne, by omega, by omega⟩]
  -- nothing lies behind the end that would have to move
  rw [show ((t.length : Int) + 1 - (t.length + 1)).toNat = 0 by omega]
  rfl

end Table

/-! ## Reported lengths -/

section Reported

variable {invoke : Invoke} {t : TableId} {length : Int64} {w w' : World}

/-- Insertion goes by the length that was reported, on the table as the report has left it. -/
theorem tableInsert_of_length (h : lengthInteger invoke (.table t) w = (.ok length, w'))
    (position : Option Int64) (value : Value) :
    tableInsert invoke t position value w =
      editing t (fun table => (table.insertWithin length
        (position.getD (endPosition length)) value).map ((), ·)) w' := by
  rw [tableInsert, bind_of_ok h, getHeap_bind, editing]
  cases (w'.heap.table t).insertWithin length (position.getD (endPosition length)) value with
  | ok table => rfl
  | error e => rfl

theorem tableRemove_of_length (h : lengthInteger invoke (.table t) w = (.ok length, w'))
    (position : Option Int64) :
    tableRemove invoke t position w = editing t (·.removeWithin length position) w' := by
  rw [tableRemove, bind_of_ok h, getHeap_bind, editing]
  cases (w'.heap.table t).removeWithin length position with
  | ok result => rfl
  | error e => rfl

end Reported

/-! ## The operations -/

section Operations

variable {invoke : Invoke} {t : TableId} {w : World}

theorem indexWithin_of_lacks (h : w.heap.Lacks t .index) (key : Value) (limit : Nat) :
    indexWithin invoke key (limit + 1) (.table t) w = (.ok ((w.heap.table t).get key), w) := by
  have hhop : w.heap.indexHop key (.table t) = .settled t := by
    rw [Heap.indexHop]
    split
    · exact Heap.delegate_table_of_nil h.metafield
    · rfl
  have hnone : ∀ i, i < 0 → ¬ w.heap.ReadEndsAt key (w.heap.chain .index (.table t) i) :=
    fun i hi => absurd hi (Nat.not_lt_zero i)
  have hend : ∀ next, Hop.settled t ≠ .link next := by
    intro next h
    cases h
  rw [indexWithin_of_hop (Nat.succ_pos limit) hnone hhop hend]
  rfl

theorem newIndexWithin_of_lacks (h : w.heap.Lacks t .newIndex) (key value : Value) (limit : Nat) :
    newIndexWithin invoke key value (limit + 1) (.table t) w = rawSet t key value w :=
  newIndexWithin_of_table (j := 0) (Nat.succ_pos limit) (fun i hi => absurd hi (Nat.not_lt_zero i))
    rfl (.inr h.metafield)

theorem length_of_lacks (h : w.heap.Lacks t .len) :
    length invoke (.table t) w = (.ok (.integer (w.heap.table t).rawLength), w) := by
  have habsent : w.heap.metavalue (.table t) .len = .absent := by
    rw [Heap.metavalue, h.metafield]
    rfl
  rw [length, getHeap_bind, habsent]
  · rfl
  · intro f hf
    cases hf

theorem lengthInteger_of_lacks (h : w.heap.Lacks t .len) :
    lengthInteger invoke (.table t) w = (.ok (w.heap.table t).rawLength, w) := by
  rw [lengthInteger, bind_of_ok (length_of_lacks h)]
  rfl

theorem tableInsert_of_lacks (h : w.heap.Lacks t .len) (position : Option Int64) (value : Value) :
    tableInsert invoke t position value w =
      editing t (fun table => (table.insertWithin table.rawLength
        (position.getD (endPosition table.rawLength)) value).map ((), ·)) w :=
  (tableInsert_of_length (lengthInteger_of_lacks h) position value).trans (editing_congr rfl)

theorem tableRemove_of_lacks (h : w.heap.Lacks t .len) (position : Option Int64) :
    tableRemove invoke t position w = editing t (·.remove position) w :=
  (tableRemove_of_length (lengthInteger_of_lacks h) position).trans (editing_congr rfl)

theorem tableConcat_of_lacks (h : w.heap.Lacks t .len) (separator : String)
    (first last : Option Int64) :
    tableConcat invoke t separator first last w =
      ((w.heap.table t).concat separator first last, w) := by
  have hrange (last : Int64) : (getHeap >>= fun h =>
      ofExcept ((h.table t).concatRange separator (first.getD 1) last)) w =
      ((w.heap.table t).concatRange separator (first.getD 1) last, w) := by
    rw [getHeap_bind]
    cases (w.heap.table t).concatRange separator (first.getD 1) last with
    | ok text => rfl
    | error e => rfl
  cases last with
  | some last => exact hrange last
  | none => exact (bind_of_ok (lengthInteger_of_lacks h)).trans (hrange _)

end Operations

/-- **The protocol extends the raw table conservatively.** Take any world and any table in it, also one
that is its own metatable. Where its metatable lacks the field that an operation asks for, or where it
has none, the operation is the raw one: reading, assigning, measuring, inserting, removing and
concatenating have the results and the errors of the raw operations, for all keys, values, positions
and ranges, and leave the world that these leave, with no call and no event added to it. Insertion
without a position is appending, as long as the table has fewer entries than the greatest integer
counts. -/
theorem operations_of_lacks (invoke : Invoke) (w : World) (t : TableId) :
    let table := w.heap.table t
    (w.heap.Lacks t .index → ∀ key,
      index invoke (.table t) key w = (.ok (table.get key), w) ∧
      tableGet invoke t key w = (.ok (table.get key), w)) ∧
    (w.heap.Lacks t .newIndex → ∀ key value,
      let raw := editing t (fun table => (table.set key value).map ((), ·)) w
      newIndex invoke (.table t) key value w = raw ∧ tableSet invoke t key value w = raw) ∧
    (w.heap.Lacks t .len →
      length invoke (.table t) w = (.ok (.integer table.rawLength), w) ∧
      (∀ position value, tableInsert invoke t (some position) value w =
        editing t (fun table => (table.insert position value).map ((), ·)) w) ∧
      ((table.count : Int) < Int64.maxValue.toInt → ∀ value,
        tableInsert invoke t none value w =
          editing t (fun table => .ok ((), table.append value)) w) ∧
      (∀ position, tableRemove invoke t position w = editing t (·.remove position) w) ∧
      ∀ separator first last, tableConcat invoke t separator first last w =
        (table.concat separator first last, w)) := by
  intro table
  refine ⟨?_, ?_, ?_⟩
  · intro h key
    have hread : index invoke (.table t) key w = (.ok (table.get key), w) :=
      indexWithin_of_lacks h key _
    exact ⟨hread, hread⟩
  · intro h key value raw
    have hwrite : newIndex invoke (.table t) key value w = raw := by
      show _ = editing t _ w
      rw [← rawSet_eq_editing]
      exact newIndexWithin_of_lacks h key value _
    exact ⟨hwrite, hwrite⟩
  · intro h
    refine ⟨length_of_lacks h, ?_, ?_, tableRemove_of_lacks h, tableConcat_of_lacks h⟩
    · exact fun position value => tableInsert_of_lacks h (some position) value
    · intro hfits value
      rw [tableInsert_of_lacks h none value]
      apply editing_congr
      show (table.insertWithin table.rawLength (endPosition table.rawLength) value).map _ = _
      rw [Table.insertWithin_endPosition hfits]
      rfl

/-- Table 0 is its own metatable, and table 1 has table 0 for one. Neither holds a field that the protocol
asks for. -/
def silentWorld : World where
  heap := { tables := ⟨#[
    { entries := [(.string "name", .string "silent")], metatable := some ⟨0⟩ },
    { entries := [(.integer 1, .string "a"), (.integer 2, .string "b"), (.integer 4, .string "d")],
      metatable := some ⟨0⟩ }]⟩ }

theorem operations_of_lacks_silent :
    let h := silentWorld.heap
    (h.Lacks ⟨0⟩ .index ∧ index invoke (.table ⟨0⟩) (.string "size") silentWorld =
      (.ok .nil, silentWorld)) ∧
    (h.Lacks ⟨1⟩ .newIndex ∧ (newIndex invoke (.table ⟨1⟩) .nil .nil silentWorld).1 =
      .error .nilIndex) ∧
    (h.Lacks ⟨1⟩ .len ∧ ((h.table ⟨1⟩).count : Int) < Int64.maxValue.toInt ∧
      tableInsert invoke ⟨1⟩ none (.string "c") silentWorld =
        (.ok (), { silentWorld with
          heap := h.setTable ⟨1⟩ ((h.table ⟨1⟩).setAt 3 (.string "c")) }) ∧
      (tableRemove invoke ⟨1⟩ (some 3) silentWorld).1 =
        .error (.positionOutOfBounds .remove 3)) := by
  intro h
  have hlacks (t : TableId) (ht : t = ⟨0⟩ ∨ t = ⟨1⟩) (field : Metafield) : h.Lacks t field := by
    intro m hm
    obtain rfl : m = ⟨0⟩ := by rcases ht with rfl | rfl <;> exact (Option.some.inj hm).symm
    cases field <;> decide
  obtain ⟨hread, -, -⟩ := operations_of_lacks invoke silentWorld ⟨0⟩
  obtain ⟨-, hwrite, hlength⟩ := operations_of_lacks invoke silentWorld ⟨1⟩
  obtain ⟨-, -, happend, hremove, -⟩ := hlength (hlacks ⟨1⟩ (.inr rfl) .len)
  refine ⟨⟨hlacks ⟨0⟩ (.inl rfl) .index, ?_⟩, ⟨hlacks ⟨1⟩ (.inr rfl) .newIndex, ?_⟩,
    hlacks ⟨1⟩ (.inr rfl) .len, by decide, ?_, ?_⟩
  · exact (hread (hlacks ⟨0⟩ (.inl rfl) .index) (.string "size")).1
  · rw [(hwrite (hlacks ⟨1⟩ (.inr rfl) .newIndex) .nil .nil).1]
    rfl
  · exact happend (by decide) (.string "c")
  · rw [hremove]
    rfl

end LuaHost

import LuaHost.Json.Bridge
import LuaHost.Proofs.Heap.Cells
import LuaHost.Proofs.Table.WellFormed

/-!
# LuaHost.Proofs.Heap.WellFormed

Heaps of well-formed tables, and the changes of a heap that leave it so.

* `Heap.WellFormed.setTable`, `Heap.WellFormed.newTable`: storing a well-formed table.
* `Json.preserved_toValue`: making a JSON value only allocates well-formed tables.
-/

namespace LuaHost

/-- Every table is well-formed. A table that was never allocated reads as the empty one. -/
def Heap.WellFormed (h : Heap) : Prop := ∀ t, (h.table t).WellFormed

namespace Heap

theorem wellFormed_empty : Heap.WellFormed {} := by
  intro t
  have htable : Heap.table {} t = {} := by
    simp [table, Store.get]
    rfl
  rw [htable]
  exact Table.wellFormed_empty none

namespace WellFormed

variable {h h' : Heap}

theorem of_tables (hh : h.WellFormed) (heq : h'.tables = h.tables) : h'.WellFormed := by
  intro t
  have htable : h'.table t = h.table t := by simp [table, heq]
  rw [htable]
  exact hh t

theorem setTable (hh : h.WellFormed) (t : TableId) {table : Table} (ht : table.WellFormed) :
    (h.setTable t table).WellFormed := by
  intro u
  by_cases hu : u = t
  · rw [hu, h.table_setTable_same]
    exact ht
  · rw [h.table_setTable_other table hu]
    exact hh u

theorem newTable (hh : h.WellFormed) {table : Table} (ht : table.WellFormed) :
    (h.newTable table).2.WellFormed := by
  intro u
  by_cases hu : u = (h.newTable table).1
  · rw [hu, h.table_newTable_same]
    exact ht
  · rw [h.table_newTable_other table hu]
    exact hh u

theorem setTableMetatable (hh : h.WellFormed) (t : TableId) (metatable : Option TableId) :
    (h.setTableMetatable t metatable).WellFormed := by
  have ht := (hh t).of_entries (u := { h.table t with metatable }) rfl
  exact hh.setTable t ht

end WellFormed
end Heap

/-! ## JSON -/

theorem Table.wellFormed_ofMembers (members : List (String × Value)) :
    (Table.ofMembers members).WellFormed := by
  have hempty := Table.wellFormed_empty none
  unfold Table.ofMembers
  -- the induction is for whatever table the members before have filled
  generalize ({ entries := [], metatable := none } : Table) = t at hempty ⊢
  induction members generalizing t with
  | nil => exact hempty
  | cons member rest ih =>
    have hnext := hempty.put (Value.isKey_string member.1) member.2
    exact ih _ hnext

/-- Allocating a well-formed table keeps the property. -/
def Heap.StableNew (P : Heap → Prop) : Prop :=
  ∀ (h : Heap) (table : Table), table.WellFormed → P h → P (h.newTable table).2

namespace Json

variable {P : Heap → Prop}

mutual

theorem preserved_toValue (hnew : Heap.StableNew P) (json : Json) {h : Heap} (hh : P h) :
    P (json.toValue.run h).2 := by
  cases json with
  | array elements =>
    have helements := preserved_toValues hnew elements hh
    have hvalues := Table.wellFormed_ofList ((toValues elements).run h).1
    exact hnew _ _ hvalues helements
  | object members =>
    have hmembers := preserved_memberValues hnew members hh
    have hvalues := Table.wellFormed_ofMembers ((memberValues members).run h).1
    exact hnew _ _ hvalues hmembers
  | _ => exact hh

theorem preserved_toValues (hnew : Heap.StableNew P) (elements : List Json) {h : Heap} (hh : P h) :
    P ((toValues elements).run h).2 := by
  cases elements with
  | nil => exact hh
  | cons element rest =>
    have helement := preserved_toValue hnew element hh
    exact preserved_toValues hnew rest helement

theorem preserved_memberValues (hnew : Heap.StableNew P) (members : List (String × Json)) {h : Heap}
    (hh : P h) : P ((memberValues members).run h).2 := by
  cases members with
  | nil => exact hh
  | cons member rest =>
    have hmember := preserved_toValue hnew member.2 hh
    exact preserved_memberValues hnew rest hmember

end

theorem wellFormed_toValue (json : Json) {h : Heap} (hh : h.WellFormed) :
    (json.toValue.run h).2.WellFormed :=
  preserved_toValue (fun _ _ htable hheap => hheap.newTable htable) json hh

end Json
end LuaHost

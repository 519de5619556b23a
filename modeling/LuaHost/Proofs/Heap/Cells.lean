import LuaHost.Heap.Basic

/-!
# LuaHost.Proofs.Heap.Cells

Tables and userdata of a heap after one of them is replaced, or a new table or function is allocated.

* `Heap.metatable?_setTable`, `Heap.metatable?_setUserdata`, `Heap.metatable?_newTable_of_some`: metatable
  slots after that.
-/

namespace LuaHost.Heap

theorem table_setTable_same (h : Heap) (t : TableId) (table : Table) :
    (h.setTable t table).table t = table :=
  h.tables.get_set_same t.index table

theorem table_setTable_other (h : Heap) {t u : TableId} (table : Table) (hu : u ≠ t) :
    (h.setTable t table).table u = h.table u := by
  apply h.tables.get_set_other
  intro heq
  apply hu
  cases t
  cases u
  exact congrArg TableId.mk heq.symm

theorem table_newTable_same (h : Heap) (table : Table) :
    (h.newTable table).2.table (h.newTable table).1 = table :=
  h.tables.get_alloc_same table

theorem table_newTable_other (h : Heap) (table : Table) {u : TableId}
    (hu : u ≠ (h.newTable table).1) : (h.newTable table).2.table u = h.table u := by
  apply h.tables.get_alloc_other
  intro heq
  apply hu
  cases u
  exact congrArg TableId.mk heq

theorem table_of_size_le {h : Heap} {t : TableId} (ht : h.tables.size ≤ t.index) :
    h.table t = {} := by
  simp only [table, Store.get]
  rw [Array.getElem?_eq_none ht]
  rfl

theorem table_newTable_of_ne_empty {h : Heap} {t : TableId} (ht : h.table t ≠ {}) (table : Table) :
    (h.newTable table).2.table t = h.table t := by
  refine h.table_newTable_other table ?_
  rintro rfl
  exact ht (table_of_size_le (Nat.le_refl _))

theorem body_newFunction_same (h : Heap) (body : Body) :
    (h.newFunction body).2.body (h.newFunction body).1 = body :=
  h.functions.get_alloc_same body

theorem userdata_setUserdata_same (h : Heap) (u : UserdataId) (data : Userdata) :
    (h.setUserdata u data).userdata u = data :=
  h.userdatas.get_set_same u.index data

theorem userdata_setUserdata_other (h : Heap) {u x : UserdataId} (data : Userdata) (hx : x ≠ u) :
    (h.setUserdata u data).userdata x = h.userdata x := by
  apply h.userdatas.get_set_other
  intro heq
  apply hx
  cases u
  cases x
  exact congrArg UserdataId.mk heq.symm

/-! ## Metatable slots -/

section Slots

variable {h : Heap} {v : Value}

theorem metatable?_setTable {t : TableId} {table : Table}
    (htable : v = .table t → table.metatable = (h.table t).metatable) :
    (h.setTable t table).metatable? v = h.metatable? v := by
  cases v with
  | table u =>
    by_cases hu : u = t
    · rw [hu, metatable?, h.table_setTable_same]
      exact htable (congrArg Value.table hu)
    · rw [metatable?, h.table_setTable_other table hu]
      rfl
  | _ => rfl

theorem metatable?_setUserdata {u : UserdataId} {data : Userdata}
    (hdata : v = .userdata u → data.metatable = (h.userdata u).metatable) :
    (h.setUserdata u data).metatable? v = h.metatable? v := by
  cases v with
  | userdata x =>
    by_cases hx : x = u
    · rw [hx, metatable?, h.userdata_setUserdata_same]
      exact hdata (congrArg Value.userdata hx)
    · rw [metatable?, h.userdata_setUserdata_other data hx]
      rfl
  | _ => rfl

/-- A table that was never allocated has no metatable, so the new table is another. -/
theorem metatable?_newTable_of_some {m : TableId} (hv : h.metatable? v = some m) (table : Table) :
    (h.newTable table).2.metatable? v = some m := by
  cases v with
  | table t =>
    have hallocated : h.table t ≠ {} := by
      intro hempty
      rw [metatable?, hempty] at hv
      cases hv
    rw [metatable?, table_newTable_of_ne_empty hallocated]
    exact hv
  | _ => exact hv

end Slots

end LuaHost.Heap

import LuaHost.Proofs.Table.Map
import LuaHost.Table.Edit

/-!
# LuaHost.Proofs.Table.Edits

What raw changes leave as it was. All of them but assignment at a key are assignments at positions, one
after the other.

* `Table.Stable`: a property of tables that assignment at a position keeps.
* `Table.Stable.apply`: every raw change keeps such a property, if assignment at a key does.
* `Table.metatable_apply`, `Table.getString_apply`: no raw change replaces the metatable, and only
  assignment at a name changes what is held under it.
-/

namespace LuaHost

theorem exists_of_map_ok {ε α β : Type} {f : α → β} {outcome : Except ε α} {b : β}
    (h : outcome.map f = .ok b) : ∃ a, outcome = .ok a ∧ f a = b := by
  cases outcome with
  | error e => cases h
  | ok a => exact ⟨a, rfl, Except.ok.inj h⟩

namespace Table

/-! ## Properties that assignment keeps -/

/-- Assignment at a position keeps the property, whatever the position and the value. -/
def Stable (P : Table → Prop) : Prop := ∀ t i value, P t → P (t.setAt i value)

/-- What insertion and removal make of a table, against any length. -/
inductive Shifts (t : Table) : Table → Prop where
  | insert {t' : Table} {length position : Int64} {value : Value} :
      t.insertWithin length position value = .ok t' → Shifts t t'
  | remove {t' : Table} {length : Int64} {position : Option Int64} {removed : Value} :
      t.removeWithin length position = .ok (removed, t') → Shifts t t'

namespace Stable

variable {P : Table → Prop} (hP : Stable P) {t t' : Table}
include hP

theorem setFrom (values : List Value) (start : Int) (h : P t) :
    P (Table.setFrom start values t) := by
  induction values generalizing start t with
  | nil => exact h
  | cons value rest ih => exact ih (start + 1) (hP t start value h)

theorem appendFrom (values : List Value) (start : Int) (h : P t) :
    P (Table.appendFrom start values t) := by
  induction values generalizing start t with
  | nil => exact h
  | cons value rest ih =>
    have hnext := hP t start value h
    exact ih _ hnext

theorem clearFrom (bound : Nat) (start : Int) (h : P t) : P (Table.clearFrom bound start t) := by
  induction bound generalizing start t with
  | zero => exact h
  | succ bound ih =>
    simp only [Table.clearFrom]
    split
    · exact ih (start + 1) (hP t start .nil h)
    · exact h

/-- Shifting copies what is read, holes included: a nil that is moved removes an entry. -/
theorem shiftUp (start : Int) (n : Nat) (h : P t) : P (Table.shiftUp start n t) := by
  induction n generalizing t with
  | zero => exact h
  | succ n ih => exact ih (hP t _ _ h)

theorem shiftDown (n : Nat) (start : Int) (h : P t) : P (Table.shiftDown start n t) := by
  induction n generalizing start t with
  | zero => exact h
  | succ n ih => exact ih (start + 1) (hP t _ _ h)

theorem insertWithin (h : P t) {length position : Int64} {value : Value}
    (hins : t.insertWithin length position value = .ok t') : P t' := by
  unfold Table.insertWithin at hins
  split at hins
  · cases hins
    have hshift := hP.shiftUp position.toInt (length.toInt + 1 - position.toInt).toNat h
    exact hP _ position.toInt value hshift
  · cases hins

theorem removeAt (h : P t) (length position : Int64) : P (t.removeAt length position).2 := by
  have hshift := hP.shiftDown (length.toInt - position.toInt).toNat position.toInt h
  exact hP _ length.toInt .nil hshift

theorem removeWithin (h : P t) {length : Int64} {position : Option Int64} {removed : Value}
    (hrem : t.removeWithin length position = .ok (removed, t')) : P t' := by
  cases position with
  | some position =>
    simp only [Table.removeWithin] at hrem
    split at hrem
    · cases hrem
      exact hP.removeAt h length position
    · cases hrem
  | none =>
    simp only [Table.removeWithin] at hrem
    split at hrem
    · cases hrem
      exact h
    · cases hrem
      exact hP.removeAt h length length

theorem apply (h : P t) {edit : Edit} {results : List Value}
    (hset : ∀ key value, edit = .set key value → t.set key value = .ok t' → P t')
    (hrun : edit.apply t = .ok (results, t')) : P t' := by
  cases edit with
  | set key value =>
    obtain ⟨u, hu, heq⟩ := exists_of_map_ok hrun
    cases heq
    exact hset key value rfl hu
  | setAt i value =>
    cases hrun
    exact hP t i.toInt value h
  | append value =>
    cases hrun
    exact hP t _ value h
  | appendAll values =>
    cases hrun
    exact hP.appendFrom values _ h
  | insert position value =>
    obtain ⟨u, hins, heq⟩ := exists_of_map_ok hrun
    cases heq
    exact hP.insertWithin h hins
  | insertWithin length position value =>
    obtain ⟨u, hins, heq⟩ := exists_of_map_ok hrun
    cases heq
    exact hP.insertWithin h hins
  | remove position =>
    obtain ⟨⟨removed, u⟩, hrem, heq⟩ := exists_of_map_ok hrun
    cases heq
    exact hP.removeWithin h hrem
  | removeWithin length position =>
    obtain ⟨⟨removed, u⟩, hrem, heq⟩ := exists_of_map_ok hrun
    cases heq
    exact hP.removeWithin h hrem
  | clearSequence =>
    cases hrun
    exact hP.clearFrom _ 1 h

theorem shifts (h : P t) (hshifts : t.Shifts t') : P t' := by
  cases hshifts with
  | insert hins => exact hP.insertWithin h hins
  | remove hrem => exact hP.removeWithin h hrem

end Stable

/-! ## What only assignment at a key changes -/

section Kept

variable {t t' : Table} {edit : Edit} {results : List Value}

theorem stable_metatable (metatable : Option TableId) : Stable (·.metatable = metatable) :=
  fun _ _ _ h => h

theorem metatable_apply (hrun : edit.apply t = .ok (results, t')) : t'.metatable = t.metatable :=
  (stable_metatable t.metatable).apply rfl (fun _ _ _ hset => (set_other hset).1) hrun

/-- A name is no position. -/
theorem stable_getString (name : String) (field : Value) : Stable (·.getString name = field) := by
  intro u i value h
  have hother : (u.setAt i value).getString name = u.getString name := get_put_other rfl u value
  exact hother.trans h

theorem getString_set {name : String} {key value : Value} (hkey : key ≠ .string name)
    (hset : t.set key value = .ok t') : t'.getString name = t.getString name :=
  (set_other hset).2 (.string name) (Value.rawEq_string_of_ne hkey)

theorem getString_apply {name : String} (hedit : ∀ value, edit ≠ .set (.string name) value)
    (hrun : edit.apply t = .ok (results, t')) : t'.getString name = t.getString name := by
  refine (stable_getString name (t.getString name)).apply rfl ?_ hrun
  intro key value heq hset
  refine getString_set ?_ hset
  rintro rfl
  exact hedit value heq

end Kept

end Table
end LuaHost

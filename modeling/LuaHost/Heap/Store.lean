/-!
# LuaHost.Heap.Store

Numbered cells that are allocated in order. A cell that was never written reads as the default value,
so what was written reads back at every number.

- `Store.get_set_same`, `Store.get_set_other`: reading after writing.
- `Store.get_alloc_same`, `Store.get_alloc_other`: reading after allocating.
-/

namespace LuaHost

structure Store (α : Type) where
  cells : Array α := #[]

namespace Store

variable {α : Type} [Inhabited α]

instance : Inhabited (Store α) := ⟨{}⟩

def size (s : Store α) : Nat := s.cells.size

def get (s : Store α) (i : Nat) : α := s.cells[i]?.getD default

/-- Writes a cell; cells below it that were never allocated come to hold the default value. -/
def set (s : Store α) (i : Nat) (a : α) : Store α :=
  if i < s.cells.size then ⟨s.cells.setIfInBounds i a⟩
  else ⟨(s.cells ++ Array.replicate (i - s.cells.size) default).push a⟩

/-- The number of a new cell, and the store with it. -/
def alloc (s : Store α) (a : α) : Nat × Store α := (s.cells.size, ⟨s.cells.push a⟩)

theorem get_set_same (s : Store α) (i : Nat) (a : α) : (s.set i a).get i = a := by
  unfold set get
  split
  · rename_i h
    simp [h]
  · rename_i h
    have hi : i = (s.cells ++ Array.replicate (i - s.cells.size) default).size := by
      simp; omega
    simp only []
    rw [Array.getElem?_push, if_pos hi]
    rfl

theorem get_set_other (s : Store α) {i j : Nat} (a : α) (h : i ≠ j) :
    (s.set i a).get j = s.get j := by
  unfold set get
  split
  · simp [Array.getElem?_setIfInBounds_ne h]
  · rename_i hs
    have hsize : (s.cells ++ Array.replicate (i - s.cells.size) default).size = i := by
      simp; omega
    simp only []
    rw [Array.getElem?_push, hsize, if_neg (Ne.symm h), Array.getElem?_append]
    by_cases hj : j < s.cells.size
    · simp [hj]
    · rw [if_neg hj, Array.getElem?_replicate]
      simp only [Array.getElem?_eq_none (Nat.le_of_not_lt hj), Option.getD_none]
      split <;> rfl

theorem get_alloc_same (s : Store α) (a : α) : (s.alloc a).2.get (s.alloc a).1 = a := by
  simp [alloc, get]

theorem get_alloc_other (s : Store α) (a : α) {i : Nat} (h : i ≠ (s.alloc a).1) :
    (s.alloc a).2.get i = s.get i := by
  have h' : i ≠ s.cells.size := h
  simp [alloc, get, Array.getElem?_push, h']

end Store
end LuaHost

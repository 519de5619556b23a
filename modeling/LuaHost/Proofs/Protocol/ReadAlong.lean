import LuaHost.Proofs.Heap.Cells
import LuaHost.Proofs.Protocol.Chain
import LuaHost.Proofs.Table.Sequence

/-!
# LuaHost.Proofs.Protocol.ReadAlong

Reading along chains on which there is no function.

* `Heap.readAlong?`: what is read there, as a function of the heap. It is none where a function would be
  called.
* `Heap.indexWithin_of_readAlong`: it is what reading gives, and reading leaves the heap as it is.
* `Heap.readAlong_congr`: it depends on tables and userdata only.
* `Heap.le_length_entries`: what is read at different positions takes as many entries.
-/

namespace LuaHost

open Operation

namespace Heap

/-! ## Reading without calls -/

/-- Reading at a key along the chain, at most `limit` values of it; none where a function would be
called. -/
def readAlong? (h : Heap) (key : Value) : (limit : Nat) → (v : Value) → Option (Except Error Value)
  | 0, _ => some (.error (.delegationLoop .index))
  | limit + 1, v =>
    match h.indexHop key v with
    | .settled t => some (.ok ((h.table t).get key))
    | .refused => some (.error (.indexNotSupported v.kind))
    | .handler _ => none
    | .link next => h.readAlong? key limit next

/-- No function is found on the first `limit` values of the chain. -/
def Unhandled (h : Heap) (limit : Nat) (v : Value) : Prop :=
  ∀ j < limit, ∀ f, h.metafield (h.chain .index v j) Metafield.index.name ≠ .function f

theorem chain_metafield (h : Heap) (field : Metafield) (v : Value) (j : Nat) :
    h.chain field (h.metafield v field.name) j = h.chain field v (j + 1) := by
  induction j with
  | zero => rfl
  | succ j ih => rw [chain, ih, ← chain]

section Reading

variable {h : Heap} {key v value : Value} {limit : Nat}

/-- Whatever an operation goes on to is what the field holds. -/
theorem metafield_of_delegate (h : Heap) (field : Metafield) (v : Value) :
    match h.delegate field v with
    | .handler f => h.metafield v field.name = .function f
    | .link next => h.metafield v field.name = next
    | _ => True := by
  by_cases hnil : h.metafield v field.name = .nil
  · by_cases hkind : v.kind = .table
    · obtain ⟨t, rfl⟩ := Value.exists_table_of_kind hkind
      rw [delegate_table_of_nil hnil]
      trivial
    · rw [delegate_of_nil hkind hnil]
      trivial
  · by_cases hfun : ∃ f, h.metafield v field.name = .function f
    · obtain ⟨f, hf⟩ := hfun
      rw [delegate_of_function hf]
      exact hf
    · rw [delegate_of_link hnil fun f hf => hfun ⟨f, hf⟩]

theorem metafield_of_indexHop (h : Heap) (key v : Value) :
    match h.indexHop key v with
    | .handler f => h.metafield v Metafield.index.name = .function f
    | .link next => h.metafield v Metafield.index.name = next
    | _ => True := by
  by_cases hraw : h.rawIndex key v = .nil
  · rw [indexHop_of_rawIndex_nil hraw]
    exact h.metafield_of_delegate .index v
  · obtain ⟨t, hhop, -⟩ := indexHop_of_rawIndex hraw
    rw [hhop]
    trivial

theorem exists_readAlong (hfun : h.Unhandled limit v) (key : Value) :
    ∃ outcome, h.readAlong? key limit v = some outcome := by
  induction limit generalizing v with
  | zero => exact ⟨_, rfl⟩
  | succ limit ih =>
    have hfield := h.metafield_of_indexHop key v
    rw [readAlong?]
    cases hhop : h.indexHop key v with
    | settled t => exact ⟨_, rfl⟩
    | refused => exact ⟨_, rfl⟩
    | handler f =>
      rw [hhop] at hfield
      exact absurd hfield (hfun 0 (Nat.succ_pos limit) f)
    | link next =>
      rw [hhop] at hfield
      refine ih fun j hj => ?_
      rw [← hfield, chain_metafield]
      exact hfun (j + 1) (Nat.succ_lt_succ hj)

/-- The walk only leaves events behind, whatever functions there are. -/
theorem indexWithin_of_readAlong (invoke : Invoke) {w : World} {outcome : Except Error Value}
    (h : w.heap.readAlong? key limit v = some outcome) :
    (indexWithin invoke key limit v w).1 = outcome ∧
      (indexWithin invoke key limit v w).2.heap = w.heap := by
  induction limit generalizing v w with
  | zero =>
    cases h
    exact ⟨rfl, rfl⟩
  | succ limit ih =>
    rw [readAlong?] at h
    rw [indexWithin, getHeap_bind]
    cases hhop : w.heap.indexHop key v with
    | settled t =>
      rw [hhop] at h
      cases h
      exact ⟨rfl, rfl⟩
    | refused =>
      rw [hhop] at h
      cases h
      exact ⟨rfl, rfl⟩
    | handler f =>
      rw [hhop] at h
      cases h
    | link next =>
      rw [hhop] at h
      exact ih (w := { w with events := w.events.push (.following .index next.kind) }) h

/-- What is read and is not nil is an entry of some table. -/
theorem exists_contains_of_readAlong (h' : h.readAlong? key limit v = some (.ok value))
    (hvalue : value ≠ .nil) : ∃ t, (h.table t).contains key = true := by
  induction limit generalizing v with
  | zero => cases h'
  | succ limit ih =>
    rw [readAlong?] at h'
    split at h'
    · rename_i t _
      cases h'
      refine ⟨t, ?_⟩
      rw [← Bool.not_eq_false]
      exact fun habsent => hvalue (Table.get_of_not_contains habsent)
    · cases h'
    · cases h'
    · exact ih h'

/-- Functions are not looked at. -/
theorem readAlong_congr {h' : Heap} (htables : h'.tables = h.tables)
    (huserdatas : h'.userdatas = h.userdatas) :
    h'.readAlong? key limit v = h.readAlong? key limit v := by
  obtain ⟨tables, userdatas, functions⟩ := h
  obtain ⟨tables', userdatas', functions'⟩ := h'
  cases htables
  cases huserdatas
  induction limit generalizing v with
  | zero => rfl
  | succ limit ih =>
    have hhop : indexHop ⟨tables, userdatas, functions'⟩ key v =
        indexHop ⟨tables, userdatas, functions⟩ key v := rfl
    rw [readAlong?, readAlong?, hhop]
    cases indexHop ⟨tables, userdatas, functions⟩ key v with
    | link next => exact ih
    | _ => rfl

end Reading

/-! ## All entries -/

/-- The entries of all tables. -/
def entries (h : Heap) : Entries := h.tables.cells.toList.flatMap Table.entries

theorem contains_entries {h : Heap} {t : TableId} {key : Value}
    (hpresent : (h.table t).contains key = true) : Entries.contains key h.entries = true := by
  have hentries : Entries.contains key (h.table t).entries = true :=
    (Bool.and_eq_true_iff.1 hpresent).2
  obtain ⟨entry, hentry, heq⟩ := List.any_eq_true.1 hentries
  refine List.any_eq_true.2 ⟨entry, ?_, heq⟩
  rw [entries, List.mem_flatMap]
  -- a table with an entry has been allocated
  have hallocated : t.index < h.tables.cells.size := by
    rw [← Nat.not_le]
    intro hle
    rw [table_of_size_le hle] at hentry
    cases hentry
  refine ⟨h.table t, ?_, hentry⟩
  rw [table, Store.get, Array.getElem?_eq_getElem hallocated]
  exact Array.getElem_mem_toList hallocated

/-- Keys at different positions are different, and each of them takes an entry. -/
theorem le_length_entries {h : Heap} {m : Nat} (hm : m < Nat.pow 2 63)
    (hpresent : ∀ i, i < m → ∃ t, (h.table t).containsAt (i + 1 : Nat) = true) :
    m ≤ h.entries.length := by
  have hlength := Entries.length_le_of_contains h.entries (List.nodup_range' (s := 1) (n := m)) ?_
  · rwa [List.length_range'] at hlength
  · intro k hk
    obtain ⟨hlow, hhigh⟩ := List.mem_range'_1.1 hk
    obtain ⟨t, ht⟩ := hpresent (k - 1) (by omega)
    rw [Nat.sub_add_cancel hlow] at ht
    exact ⟨by omega, contains_entries ht⟩

end Heap
end LuaHost

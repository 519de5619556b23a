import LuaHost.Proofs.Table.Map
import LuaHost.Protocol.Delegation

/-!
# LuaHost.Proofs.Protocol.Chain

Delegation chains, and what reading and assigning do along them.

* `Heap.chain`: the values that the links of a field lead to, without a limit.
* `Heap.ReadEndsAt`, `Heap.WriteEndsAt`: the values at which there is nothing left to follow.
* `walkWithin`: the walk along a chain that reading and assigning have in common. It is finished at the
  first value that is no link (`walk_of_stop`), or fails at the limit (`walk_of_endless`).
-/

namespace LuaHost

open Operation

/-- The first position at which a sequence of values has a property. -/
structure FirstAt (P : Value → Prop) (values : Nat → Value) (j : Nat) : Prop where
  here : P (values j)
  before : ∀ i, i < j → ¬ P (values i)

theorem exists_firstAt_or (P : Value → Prop) (values : Nat → Value) (bound : Nat) :
    (∃ j, j < bound ∧ FirstAt P values j) ∨ ∀ j, j < bound → ¬ P (values j) := by
  induction bound with
  | zero => exact .inr fun j hj => absurd hj (Nat.not_lt_zero j)
  | succ bound ih =>
    rcases ih with ⟨j, hj, hfirst⟩ | hnone
    · exact .inl ⟨j, Nat.lt_succ_of_lt hj, hfirst⟩
    · by_cases hP : P (values bound)
      · exact .inl ⟨bound, Nat.lt_succ_self bound, hP, hnone⟩
      · refine .inr fun j hj => ?_
        rcases Nat.lt_succ_iff_lt_or_eq.1 hj with hlt | rfl
        · exact hnone j hlt
        · exact hP

theorem Value.exists_table_of_kind {v : Value} (h : v.kind = .table) : ∃ t, v = .table t := by
  cases v with
  | table t => exact ⟨t, rfl⟩
  | _ => cases h

namespace Heap

/-! ## Chains -/

/-- The value that `j` links lead to. A link is the raw field of the metatable, whatever it holds. -/
def chain (h : Heap) (field : Metafield) (v : Value) : Nat → Value
  | 0 => v
  | j + 1 => h.metafield (h.chain field v j) field.name

/-- What the value itself holds at the key; nil for a value that is no table. -/
def rawIndex (h : Heap) (key : Value) : Value → Value
  | .table t => (h.table t).get key
  | _ => .nil

/-- Whether the value itself has the key; no value but a table has any. -/
def rawContains (h : Heap) (key : Value) : Value → Bool
  | .table t => (h.table t).contains key
  | _ => false

/-- A chain ends at a value that settles the operation itself, and at one whose field is absent or holds
a function. -/
def EndsAt (h : Heap) (field : Metafield) (settles : Value → Prop) (v : Value) : Prop :=
  settles v ∨ h.metafield v field.name = .nil ∨ ∃ f, h.metafield v field.name = .function f

def ReadEndsAt (h : Heap) (key v : Value) : Prop := h.EndsAt .index (h.rawIndex key · ≠ .nil) v

def WriteEndsAt (h : Heap) (key v : Value) : Prop :=
  h.EndsAt .newIndex (h.rawContains key · = true) v

/-! ## One hop -/

section Hops

variable {h : Heap} {field : Metafield} {key v : Value}

theorem delegate_of_link (hnil : h.metafield v field.name ≠ .nil)
    (hfun : ∀ f, h.metafield v field.name ≠ .function f) :
    h.delegate field v = .link (h.metafield v field.name) := by
  simp only [delegate, metavalue]
  cases hm : h.metafield v field.name with
  | nil => exact absurd hm hnil
  | function f => exact absurd hm (hfun f)
  | _ => rfl

theorem delegate_of_function {f : FunctionId} (hf : h.metafield v field.name = .function f) :
    h.delegate field v = .handler f := by
  simp only [delegate, metavalue, hf, Metavalue.resolve]

theorem delegate_table_of_nil {t : TableId} (hnil : h.metafield (.table t) field.name = .nil) :
    h.delegate field (.table t) = .settled t := by
  simp only [delegate, metavalue, hnil, Metavalue.resolve]

theorem delegate_of_nil (hv : v.kind ≠ .table) (hnil : h.metafield v field.name = .nil) :
    h.delegate field v = .refused := by
  simp only [delegate, metavalue, hnil, Metavalue.resolve]
  cases v with
  | table t => exact absurd rfl hv
  | _ => rfl

theorem indexHop_of_rawIndex (hraw : h.rawIndex key v ≠ .nil) :
    ∃ t, h.indexHop key v = .settled t ∧ h.rawIndex key v = (h.table t).get key := by
  cases v with
  | table t =>
    refine ⟨t, ?_, rfl⟩
    have hget : (h.table t).get key ≠ .nil := hraw
    rw [indexHop]
    cases hvalue : (h.table t).get key with
    | nil => exact absurd hvalue hget
    | _ => rfl
  | _ => exact absurd rfl hraw

theorem indexHop_of_rawIndex_nil (hraw : h.rawIndex key v = .nil) :
    h.indexHop key v = h.delegate .index v := by
  cases v with
  | table t =>
    have hget : (h.table t).get key = .nil := hraw
    rw [indexHop, hget]
    rfl
  | _ => rfl

theorem exists_table_of_rawContains (hraw : h.rawContains key v = true) : ∃ t, v = .table t := by
  cases v with
  | table t => exact ⟨t, rfl⟩
  | _ => cases hraw

theorem newIndexHop_of_rawContains {t : TableId} (hraw : h.rawContains key (.table t) = true) :
    h.newIndexHop key (.table t) = .settled t :=
  if_pos hraw

theorem newIndexHop_of_rawContains_false (hraw : h.rawContains key v = false) :
    h.newIndexHop key v = h.delegate .newIndex v := by
  cases v with
  | table t =>
    have hcontains : (h.table t).contains key = false := hraw
    rw [newIndexHop, hcontains, if_neg Bool.false_ne_true]
  | _ => rfl

theorem indexHop_of_not_readEndsAt (hend : ¬ h.ReadEndsAt key v) :
    h.indexHop key v = .link (h.metafield v Metafield.index.name) := by
  simp only [ReadEndsAt, EndsAt, not_or, not_exists, ne_eq, Decidable.not_not] at hend
  rw [indexHop_of_rawIndex_nil hend.1, delegate_of_link hend.2.1 hend.2.2]

/-- A table whose own field is another table is passed over where it holds nothing itself. -/
theorem not_readEndsAt_of_table {t : TableId} (hraw : h.rawIndex key v = .nil)
    (hlink : h.metafield v Metafield.index.name = .table t) : ¬ h.ReadEndsAt key v := by
  simp [ReadEndsAt, EndsAt, hraw, hlink]

theorem newIndexHop_of_not_writeEndsAt (hend : ¬ h.WriteEndsAt key v) :
    h.newIndexHop key v = .link (h.metafield v Metafield.newIndex.name) := by
  simp only [WriteEndsAt, EndsAt, not_or, not_exists, Bool.not_eq_true] at hend
  rw [newIndexHop_of_rawContains_false hend.1, delegate_of_link hend.2.1 hend.2.2]

theorem not_writeEndsAt_of_table {t : TableId} (hraw : h.rawContains key v = false)
    (hlink : h.metafield v Metafield.newIndex.name = .table t) : ¬ h.WriteEndsAt key v := by
  simp [WriteEndsAt, EndsAt, hraw, hlink]

end Hops

end Heap

/-! ## Walks -/

/-- The world after `n` links of a chain: each has left an event, and nothing else has changed. -/
def World.followed (w : World) (field : Metafield) (v : Value) : Nat → World
  | 0 => w
  | n + 1 =>
    let before := w.followed field v n
    { before with
      events := before.events.push (.following field (w.heap.chain field v (n + 1)).kind) }

@[simp] theorem World.followed_heap (w : World) (field : Metafield) (v : Value) (n : Nat) :
    (w.followed field v n).heap = w.heap := by
  induction n with
  | zero => rfl
  | succ n ih => exact ih

@[simp] theorem World.followed_calls (w : World) (field : Metafield) (v : Value) (n : Nat) :
    (w.followed field v n).calls = w.calls := by
  induction n with
  | zero => rfl
  | succ n ih => exact ih

/-- An operation that is repeated along the links of a field, and finished where there is no link. -/
def walkWithin {α : Type} (field : Metafield) (hop : Heap → Value → Hop)
    (finish : Value → Hop → Operation α) : (limit : Nat) → (v : Value) → Operation α
  | 0, _ => fail (.delegationLoop field)
  | limit + 1, v => do
    let h ← getHeap
    match hop h v with
    | .link next => do
      emit (.following field next.kind)
      walkWithin field hop finish limit next
    | last => finish v last

section Walks

variable {α : Type} {field : Metafield} {hop : Heap → Value → Hop}
  {finish : Value → Hop → Operation α}

theorem walk_stop {v : Value} {w : World} (limit : Nat) (hstop : ∀ next, hop w.heap v ≠ .link next) :
    walkWithin field hop finish (limit + 1) v w = finish v (hop w.heap v) w := by
  rw [walkWithin, getHeap_bind]
  cases hhop : hop w.heap v with
  | link next => exact absurd hhop (hstop next)
  | _ => rfl

theorem walk_link {v next : Value} {w : World} (limit : Nat) (hlink : hop w.heap v = .link next) :
    walkWithin field hop finish (limit + 1) v w =
      walkWithin field hop finish limit next
        { w with events := w.events.push (.following field next.kind) } := by
  rw [walkWithin, getHeap_bind, hlink]
  rfl

theorem walk_links {v : Value} {w : World} {limit j : Nat} (hj : j ≤ limit)
    (hlinks : ∀ i, i < j →
      hop w.heap (w.heap.chain field v i) = .link (w.heap.chain field v (i + 1))) :
    walkWithin field hop finish limit v w =
      walkWithin field hop finish (limit - j) (w.heap.chain field v j) (w.followed field v j) := by
  induction j with
  | zero => rfl
  | succ j ih =>
    have hlink : hop (w.followed field v j).heap (w.heap.chain field v j) =
        .link (w.heap.chain field v (j + 1)) := by
      rw [w.followed_heap]
      exact hlinks j (Nat.lt_succ_self j)
    rw [ih (by omega) fun i hi => hlinks i (by omega),
      show limit - j = limit - (j + 1) + 1 by omega, walk_link _ hlink]
    rfl

/-- A walk that meets no link at a position within the limit is finished there. -/
theorem walk_of_stop {v : Value} {w : World} {limit j : Nat} (hj : j < limit)
    (hlinks : ∀ i, i < j →
      hop w.heap (w.heap.chain field v i) = .link (w.heap.chain field v (i + 1)))
    (hstop : ∀ next, hop w.heap (w.heap.chain field v j) ≠ .link next) :
    walkWithin field hop finish limit v w =
      finish (w.heap.chain field v j) (hop w.heap (w.heap.chain field v j))
        (w.followed field v j) := by
  have hstop' : ∀ next, hop (w.followed field v j).heap (w.heap.chain field v j) ≠ .link next := by
    rw [w.followed_heap]
    exact hstop
  rw [walk_links (Nat.le_of_lt hj) hlinks, show limit - j = limit - j - 1 + 1 by omega,
    walk_stop _ hstop', w.followed_heap]

theorem walk_of_endless {v : Value} {w : World} {limit : Nat}
    (hlinks : ∀ i, i < limit →
      hop w.heap (w.heap.chain field v i) = .link (w.heap.chain field v (i + 1))) :
    walkWithin field hop finish limit v w =
      (.error (.delegationLoop field), w.followed field v limit) := by
  rw [walk_links (Nat.le_refl limit) hlinks, Nat.sub_self]
  rfl

end Walks
end LuaHost

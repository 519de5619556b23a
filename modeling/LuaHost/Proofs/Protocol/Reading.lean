import LuaHost.Host.Invoke
import LuaHost.Proofs.Protocol.Chain

/-!
# LuaHost.Proofs.Protocol.Reading

Reading at a key, along any chain of delegation, closed on itself or not.

* `indexWithin_eq_walk`: reading is a walk along the chain.
* `indexWithin_of_first_end`: what is read is decided at the first value where the chain ends, if the limit
  allows it to be reached, and reading changes nothing but for what a called function does.
-/

namespace LuaHost

open Operation

def finishIndex (invoke : Invoke) (key v : Value) : Hop → Operation Value
  | .settled t => do
    let h ← getHeap
    pure ((h.table t).get key)
  | .handler f => do
    emit (.callingFor .index key)
    let results ← invoke f [v, key]
    pure results.first
  | _ => fail (.indexNotSupported v.kind)

theorem finishIndex_settled (invoke : Invoke) (key v : Value) (t : TableId) (w : World) :
    finishIndex invoke key v (.settled t) w = (.ok ((w.heap.table t).get key), w) :=
  rfl

theorem finishIndex_handler (invoke : Invoke) (key v : Value) (f : FunctionId) (w : World) :
    finishIndex invoke key v (.handler f) w =
      match invoke f [v, key] { w with events := w.events.push (.callingFor .index key) } with
      | (.ok results, w') => (.ok results.first, w')
      | (.error e, w') => (.error e, w') := by
  rw [finishIndex, emit_bind]
  split
  · rename_i hcall
    rw [bind_of_ok hcall]
    rfl
  · rename_i hcall
    rw [bind_of_error hcall]

theorem indexWithin_eq_walk (invoke : Invoke) (key : Value) (limit : Nat) (v : Value) :
    indexWithin invoke key limit v =
      walkWithin .index (·.indexHop key) (finishIndex invoke key) limit v := by
  induction limit generalizing v with
  | zero => rfl
  | succ limit ih =>
    funext w
    rw [indexWithin, walkWithin, getHeap_bind, getHeap_bind]
    cases w.heap.indexHop key v with
    | link next => simp only [ih]
    | _ => rfl

section Ends

variable {invoke : Invoke} {key v : Value} {limit j : Nat} {w : World}

theorem index_links (hbefore : ∀ i, i < j → ¬ w.heap.ReadEndsAt key (w.heap.chain .index v i)) :
    ∀ i, i < j → w.heap.indexHop key (w.heap.chain .index v i) =
      .link (w.heap.chain .index v (i + 1)) :=
  fun i hi => Heap.indexHop_of_not_readEndsAt (hbefore i hi)

theorem indexWithin_of_hop (hj : j < limit)
    (hbefore : ∀ i, i < j → ¬ w.heap.ReadEndsAt key (w.heap.chain .index v i)) {hop : Hop}
    (hhop : w.heap.indexHop key (w.heap.chain .index v j) = hop) (hstop : ∀ next, hop ≠ .link next) :
    indexWithin invoke key limit v w =
      finishIndex invoke key (w.heap.chain .index v j) hop (w.followed .index v j) := by
  rw [indexWithin_eq_walk, walk_of_stop hj (index_links hbefore) (by rw [hhop]; exact hstop), hhop]

end Ends

/-- **Reading follows the chain to its first end.** Let the chain of raw `__index` fields start at
`v`, and let `j`, below the limit, be the first position of a table with a value at the key, of a value
without the field, or of one whose field is a function. Then reading gives that value; or nil for a
table and an error for any other value; or the first result of one call of the function on the value
at position `j` and the key, or its error. Without such a position reading fails. But for the call,
only events are left behind. -/
theorem indexWithin_of_first_end (invoke : Invoke) (key v : Value) (limit : Nat) (w : World) :
    let h := w.heap
    let links := h.chain .index v
    (∀ j, j < limit → FirstAt (h.ReadEndsAt key) links j →
      (h.rawIndex key (links j) ≠ .nil →
        indexWithin invoke key limit v w =
          (.ok (h.rawIndex key (links j)), w.followed .index v j)) ∧
      (h.rawIndex key (links j) = .nil → h.metafield (links j) Metafield.index.name = .nil →
        indexWithin invoke key limit v w =
          (if (links j).kind = .table then .ok .nil
            else .error (.indexNotSupported (links j).kind), w.followed .index v j)) ∧
      (∀ f, h.rawIndex key (links j) = .nil →
        h.metafield (links j) Metafield.index.name = .function f →
        indexWithin invoke key limit v w =
          let called := w.followed .index v j
          match invoke f [links j, key]
            { called with events := called.events.push (.callingFor .index key) } with
          | (.ok results, w') => (.ok results.first, w')
          | (.error e, w') => (.error e, w'))) ∧
    ((∀ j, j < limit → ¬ h.ReadEndsAt key (links j)) →
      indexWithin invoke key limit v w =
        (.error (.delegationLoop .index), w.followed .index v limit)) ∧
    ∀ n, (w.followed .index v n).heap = w.heap ∧ (w.followed .index v n).calls = w.calls := by
  intro h links
  refine ⟨?_, ?_, ?_⟩
  · intro j hj hfirst
    refine ⟨?_, ?_, ?_⟩
    · intro hraw
      obtain ⟨t, hhop, hget⟩ := Heap.indexHop_of_rawIndex hraw
      rw [indexWithin_of_hop hj hfirst.before hhop nofun, finishIndex_settled, w.followed_heap,
        hget]
    · intro hraw hnil
      have hhop := Heap.indexHop_of_rawIndex_nil hraw
      by_cases hkind : (links j).kind = .table
      · rw [if_pos hkind]
        obtain ⟨t, ht⟩ := Value.exists_table_of_kind hkind
        have hget : (w.heap.table t).get key = .nil := by
          rw [ht] at hraw
          exact hraw
        rw [ht] at hnil
        rw [ht, Heap.delegate_table_of_nil hnil, ← ht] at hhop
        rw [indexWithin_of_hop hj hfirst.before hhop nofun, finishIndex_settled, w.followed_heap,
          hget]
      · rw [if_neg hkind]
        rw [Heap.delegate_of_nil hkind hnil] at hhop
        rw [indexWithin_of_hop hj hfirst.before hhop nofun]
        rfl
    · intro f hraw hf
      have hhop := Heap.indexHop_of_rawIndex_nil hraw
      rw [Heap.delegate_of_function hf] at hhop
      rw [indexWithin_of_hop hj hfirst.before hhop nofun, finishIndex_handler]
  · intro hendless
    rw [indexWithin_eq_walk, walk_of_endless (index_links hendless)]
  · intro n
    exact ⟨w.followed_heap .index v n, w.followed_calls .index v n⟩

/-- Table 0 inherits from table 1 through its metatable, table 2, and table 3 is its own metatable and
inherits from itself. -/
def inheritingWorld : World where
  heap := { tables := ⟨#[
    { metatable := some ⟨2⟩ },
    { entries := [(.string "width", .integer 42)] },
    { entries := [(.string "__index", .table ⟨1⟩)] },
    { entries := [(.string "__index", .table ⟨3⟩)], metatable := some ⟨3⟩ }]⟩ }

theorem indexWithin_of_first_end_inheriting :
    indexWithin invoke (.string "width") 2 (.table ⟨0⟩) inheritingWorld =
        (.ok (.integer 42), inheritingWorld.followed .index (.table ⟨0⟩) 1) ∧
      indexWithin invoke (.string "width") 2 (.table ⟨3⟩) inheritingWorld =
        (.error (.delegationLoop .index), inheritingWorld.followed .index (.table ⟨3⟩) 2) := by
  have hself (i : Nat) : inheritingWorld.heap.chain .index (.table ⟨3⟩) i = .table ⟨3⟩ := by
    induction i with
    | zero => rfl
    | succ i ih =>
      rw [Heap.chain, ih]
      decide
  have hself_open : ¬ inheritingWorld.heap.ReadEndsAt (.string "width") (.table ⟨3⟩) :=
    Heap.not_readEndsAt_of_table (t := ⟨3⟩) (by decide) (by decide)
  have hfirst : FirstAt (inheritingWorld.heap.ReadEndsAt (.string "width"))
      (inheritingWorld.heap.chain .index (.table ⟨0⟩)) 1 := by
    refine ⟨.inl (by decide), fun i hi => ?_⟩
    obtain rfl : i = 0 := by omega
    exact Heap.not_readEndsAt_of_table (t := ⟨1⟩) (by decide) (by decide)
  refine ⟨?_, ?_⟩
  · exact ((indexWithin_of_first_end invoke (.string "width") (.table ⟨0⟩) 2 inheritingWorld).1 1
      (by decide) hfirst).1 (by decide)
  · exact (indexWithin_of_first_end invoke (.string "width") (.table ⟨3⟩) 2 inheritingWorld).2.1
      fun i _ => by rw [hself]; exact hself_open

end LuaHost

import LuaHost.Host.Invoke
import LuaHost.Proofs.Heap.Cells
import LuaHost.Proofs.Protocol.Chain

/-!
# LuaHost.Proofs.Protocol.Assigning

Assigning at a key, along any chain of delegation, closed on itself or not.

* `newIndexWithin_eq_walk`: assigning is a walk along the chain.
* `Heap.SameBut`: heaps that differ in one entry of one table at most.
* `newIndexWithin_of_first_end`: the assignment is made at the first value where the chain ends, if the
  limit allows it to be reached. Where no function is called it is one raw assignment or an error that
  leaves the heap as it was.
-/

namespace LuaHost

open Operation

/-! ## Frames -/

/-- The second heap is the first but for what one table holds at one key. -/
structure Heap.SameBut (h h' : Heap) (t : TableId) (key : Value) : Prop where
  tables : ∀ u, u ≠ t → h'.table u = h.table u
  metatable : (h'.table t).metatable = (h.table t).metatable
  entries : ∀ other, key.rawEq other = false → (h'.table t).get other = (h.table t).get other
  userdatas : h'.userdatas = h.userdatas
  functions : h'.functions = h.functions

namespace Heap

theorem sameBut_set {h : Heap} {t : TableId} {key value : Value} {table : Table}
    (hset : (h.table t).set key value = .ok table) : h.SameBut (h.setTable t table) t key where
  tables _ hu := h.table_setTable_other table hu
  metatable := by rw [h.table_setTable_same, (Table.set_other hset).1]
  entries other hother := by rw [h.table_setTable_same, (Table.set_other hset).2 other hother]
  userdatas := rfl
  functions := rfl

end Heap

/-! ## The walk -/

def finishNewIndex (invoke : Invoke) (key value v : Value) : Hop → Operation Unit
  | .settled t => rawSet t key value
  | .handler f => do
    emit (.callingFor .newIndex key)
    let _ ← invoke f [v, key, value]
    pure ()
  | _ => fail (.indexNotSupported v.kind)

theorem rawSet_run (t : TableId) (key value : Value) (w : World) :
    rawSet t key value w =
      match (w.heap.table t).set key value with
      | .ok table => (.ok (), { w with heap := w.heap.setTable t table })
      | .error e => (.error e, w) := by
  rw [rawSet, getHeap_bind]
  split
  · rename_i hset
    rw [hset]
    rfl
  · rename_i hset
    rw [hset]
    rfl

theorem finishNewIndex_handler (invoke : Invoke) (key value v : Value) (f : FunctionId) (w : World) :
    finishNewIndex invoke key value v (.handler f) w =
      match invoke f [v, key, value]
        { w with events := w.events.push (.callingFor .newIndex key) } with
      | (.ok _, w') => (.ok (), w')
      | (.error e, w') => (.error e, w') := by
  rw [finishNewIndex, emit_bind]
  split
  · rename_i hcall
    rw [bind_of_ok hcall]
    rfl
  · rename_i hcall
    rw [bind_of_error hcall]

theorem newIndexWithin_eq_walk (invoke : Invoke) (key value : Value) (limit : Nat) (v : Value) :
    newIndexWithin invoke key value limit v =
      walkWithin .newIndex (·.newIndexHop key) (finishNewIndex invoke key value) limit v := by
  induction limit generalizing v with
  | zero => rfl
  | succ limit ih =>
    funext w
    rw [newIndexWithin, walkWithin, getHeap_bind, getHeap_bind]
    cases w.heap.newIndexHop key v with
    | link next => simp only [ih]
    | _ => rfl

section Ends

variable {invoke : Invoke} {key value v : Value} {limit j : Nat} {w : World}

theorem newIndex_links
    (hbefore : ∀ i, i < j → ¬ w.heap.WriteEndsAt key (w.heap.chain .newIndex v i)) :
    ∀ i, i < j → w.heap.newIndexHop key (w.heap.chain .newIndex v i) =
      .link (w.heap.chain .newIndex v (i + 1)) :=
  fun i hi => Heap.newIndexHop_of_not_writeEndsAt (hbefore i hi)

theorem newIndexWithin_of_hop (hj : j < limit)
    (hbefore : ∀ i, i < j → ¬ w.heap.WriteEndsAt key (w.heap.chain .newIndex v i)) {hop : Hop}
    (hhop : w.heap.newIndexHop key (w.heap.chain .newIndex v j) = hop)
    (hstop : ∀ next, hop ≠ .link next) :
    newIndexWithin invoke key value limit v w =
      finishNewIndex invoke key value (w.heap.chain .newIndex v j) hop
        (w.followed .newIndex v j) := by
  rw [newIndexWithin_eq_walk, walk_of_stop hj (newIndex_links hbefore) (by rw [hhop]; exact hstop),
    hhop]

theorem newIndexWithin_of_table (hj : j < limit)
    (hbefore : ∀ i, i < j → ¬ w.heap.WriteEndsAt key (w.heap.chain .newIndex v i)) {t : TableId}
    (ht : w.heap.chain .newIndex v j = .table t)
    (hend : w.heap.rawContains key (.table t) = true ∨
      w.heap.metafield (.table t) Metafield.newIndex.name = .nil) :
    newIndexWithin invoke key value limit v w = rawSet t key value (w.followed .newIndex v j) := by
  have hhop : w.heap.newIndexHop key (.table t) = .settled t := by
    cases hraw : w.heap.rawContains key (.table t) with
    | true => exact Heap.newIndexHop_of_rawContains hraw
    | false =>
      rw [Heap.newIndexHop_of_rawContains_false hraw]
      exact Heap.delegate_table_of_nil (hend.resolve_left (by rw [hraw]; exact Bool.false_ne_true))
  rw [← ht] at hhop
  rw [newIndexWithin_of_hop hj hbefore hhop nofun]
  rfl

theorem newIndexWithin_of_refused (hj : j < limit)
    (hbefore : ∀ i, i < j → ¬ w.heap.WriteEndsAt key (w.heap.chain .newIndex v i))
    (hkind : (w.heap.chain .newIndex v j).kind ≠ .table)
    (hnil : w.heap.metafield (w.heap.chain .newIndex v j) Metafield.newIndex.name = .nil) :
    newIndexWithin invoke key value limit v w =
      (.error (.indexNotSupported (w.heap.chain .newIndex v j).kind),
        w.followed .newIndex v j) := by
  have hraw : w.heap.rawContains key (w.heap.chain .newIndex v j) = false := by
    cases hlink : w.heap.chain .newIndex v j with
    | table t =>
      rw [hlink] at hkind
      exact absurd rfl hkind
    | _ => rfl
  have hhop := Heap.newIndexHop_of_rawContains_false hraw
  rw [Heap.delegate_of_nil hkind hnil] at hhop
  rw [newIndexWithin_of_hop hj hbefore hhop nofun]
  rfl

theorem newIndexWithin_of_endless
    (hendless : ∀ i, i < limit → ¬ w.heap.WriteEndsAt key (w.heap.chain .newIndex v i)) :
    newIndexWithin invoke key value limit v w =
      (.error (.delegationLoop .newIndex), w.followed .newIndex v limit) := by
  rw [newIndexWithin_eq_walk, walk_of_endless (newIndex_links hendless)]

/-- A raw assignment after the links of a chain changes one entry, or fails and changes none. -/
theorem rawSet_frame (key value v : Value) (w : World) (t : TableId) (n : Nat) :
    let run := rawSet t key value (w.followed .newIndex v n)
    (∀ e, run.1 = .error e → run.2.heap = w.heap) ∧
      (run.1 = .ok () → w.heap.SameBut run.2.heap t key) := by
  simp only [rawSet_run, w.followed_heap]
  split
  · rename_i hset
    exact ⟨nofun, fun _ => Heap.sameBut_set hset⟩
  · exact ⟨fun e _ => w.followed_heap .newIndex v n, nofun⟩

/-- Without a function at the end of the chain, assigning changes one entry of one table, or fails and
changes nothing. -/
theorem newIndexWithin_frame
    (hcall : ∀ j f, j < limit →
      FirstAt (w.heap.WriteEndsAt key) (w.heap.chain .newIndex v) j →
      w.heap.rawContains key (w.heap.chain .newIndex v j) = true ∨
      w.heap.metafield (w.heap.chain .newIndex v j) Metafield.newIndex.name ≠ .function f) :
    let run := newIndexWithin invoke key value limit v w
    (∀ e, run.1 = .error e → run.2.heap = w.heap) ∧
      (run.1 = .ok () → ∃ t, w.heap.SameBut run.2.heap t key) := by
  rcases exists_firstAt_or (w.heap.WriteEndsAt key) (w.heap.chain .newIndex v) limit with
    ⟨j, hj, hfirst⟩ | hendless
  · by_cases htable : ∃ t, w.heap.chain .newIndex v j = .table t
    · obtain ⟨t, ht⟩ := htable
      have hend : w.heap.rawContains key (.table t) = true ∨
          w.heap.metafield (.table t) Metafield.newIndex.name = .nil := by
        rw [← ht]
        rcases hfirst.here with hraw | hnil | ⟨f, hf⟩
        · exact .inl hraw
        · exact .inr hnil
        · exact .inl ((hcall j f hj hfirst).resolve_right (absurd hf))
      rw [newIndexWithin_of_table hj hfirst.before ht hend]
      have hframe := rawSet_frame key value v w t j
      exact ⟨hframe.1, fun hok => ⟨t, hframe.2 hok⟩⟩
    · have hkind : (w.heap.chain .newIndex v j).kind ≠ .table :=
        fun hkind => htable (Value.exists_table_of_kind hkind)
      have hraw : w.heap.rawContains key (w.heap.chain .newIndex v j) ≠ true :=
        fun hraw => htable (Heap.exists_table_of_rawContains hraw)
      have hnil : w.heap.metafield (w.heap.chain .newIndex v j) Metafield.newIndex.name = .nil := by
        rcases hfirst.here with hhas | hnil | ⟨f, hf⟩
        · exact absurd hhas hraw
        · exact hnil
        · exact absurd hf ((hcall j f hj hfirst).resolve_left hraw)
      rw [newIndexWithin_of_refused hj hfirst.before hkind hnil]
      exact ⟨fun e _ => w.followed_heap .newIndex v j, nofun⟩
  · rw [newIndexWithin_of_endless hendless]
    exact ⟨fun e _ => w.followed_heap .newIndex v limit, nofun⟩

end Ends

/-- **Assigning follows the chain to its first end.** Let the chain of raw `__newindex` fields start at
`v`, and let `j`, below the limit, be the first position of a table that has the key, of a value without
the field, or of one whose field is a function. A table there is assigned to raw, with the error of a
nil or NaN key; any other value without the field is an error; a function is called once, on the value
at position `j`, the key and the new value, and only its error counts. Without such a position
assigning fails. Where no function is called, an error leaves the heap as it was, and success
changes it in one entry of one table at most. -/
theorem newIndexWithin_of_first_end (invoke : Invoke) (key value v : Value) (limit : Nat)
    (w : World) :
    let h := w.heap
    let links := h.chain .newIndex v
    let run := newIndexWithin invoke key value limit v w
    (∀ j, j < limit → FirstAt (h.WriteEndsAt key) links j →
      (∀ t, links j = .table t → (h.table t).contains key = true ∨
          h.metafield (links j) Metafield.newIndex.name = .nil →
        run =
          match (h.table t).set key value with
          | .ok table => (.ok (), { w.followed .newIndex v j with heap := h.setTable t table })
          | .error e => (.error e, w.followed .newIndex v j)) ∧
      ((links j).kind ≠ .table → h.metafield (links j) Metafield.newIndex.name = .nil →
        run = (.error (.indexNotSupported (links j).kind), w.followed .newIndex v j)) ∧
      (∀ f, h.rawContains key (links j) = false →
          h.metafield (links j) Metafield.newIndex.name = .function f →
        run =
          let called := w.followed .newIndex v j
          match invoke f [links j, key, value]
            { called with events := called.events.push (.callingFor .newIndex key) } with
          | (.ok _, w') => (.ok (), w')
          | (.error e, w') => (.error e, w'))) ∧
    ((∀ j, j < limit → ¬ h.WriteEndsAt key (links j)) →
      run = (.error (.delegationLoop .newIndex), w.followed .newIndex v limit)) ∧
    (∀ n, (w.followed .newIndex v n).heap = w.heap ∧
      (w.followed .newIndex v n).calls = w.calls) ∧
    ((∀ j f, j < limit → FirstAt (h.WriteEndsAt key) links j →
        h.rawContains key (links j) = true ∨
        h.metafield (links j) Metafield.newIndex.name ≠ .function f) →
      (∀ e, run.1 = .error e → run.2.heap = h) ∧
      (run.1 = .ok () → ∃ t, h.SameBut run.2.heap t key)) := by
  intro h links run
  refine ⟨?_, newIndexWithin_of_endless, ?_, newIndexWithin_frame⟩
  · intro j hj hfirst
    refine ⟨?_, newIndexWithin_of_refused hj hfirst.before, ?_⟩
    · intro t ht hend
      rw [ht] at hend
      have hrun : run = _ := newIndexWithin_of_table hj hfirst.before ht hend
      rw [rawSet_run, w.followed_heap] at hrun
      exact hrun
    · intro f hraw hf
      have hhop := Heap.newIndexHop_of_rawContains_false hraw
      rw [Heap.delegate_of_function hf] at hhop
      have hrun : run = _ := newIndexWithin_of_hop hj hfirst.before hhop nofun
      rw [finishNewIndex_handler] at hrun
      exact hrun
  · intro n
    exact ⟨w.followed_heap .newIndex v n, w.followed_calls .newIndex v n⟩

/-- Table 0 redirects what it does not have to table 1 through its metatable, table 2. -/
def redirectingWorld : World where
  heap := { tables := ⟨#[
    { entries := [(.string "width", .integer 1)], metatable := some ⟨2⟩ },
    {},
    { entries := [(.string "__newindex", .table ⟨1⟩)] }]⟩ }

theorem newIndexWithin_of_first_end_redirecting :
    newIndexWithin invoke (.string "height") (.integer 42) 2 (.table ⟨0⟩) redirectingWorld =
        (.ok (), { redirectingWorld.followed .newIndex (.table ⟨0⟩) 1 with
          heap := redirectingWorld.heap.setTable ⟨1⟩
            { entries := [(.string "height", .integer 42)] } }) ∧
      newIndexWithin invoke .nil (.integer 42) 2 (.table ⟨0⟩) redirectingWorld =
        (.error .nilIndex, redirectingWorld.followed .newIndex (.table ⟨0⟩) 1) := by
  have hfirst (key : Value)
      (hraw : redirectingWorld.heap.rawContains key (.table ⟨0⟩) = false) :
      FirstAt (redirectingWorld.heap.WriteEndsAt key)
        (redirectingWorld.heap.chain .newIndex (.table ⟨0⟩)) 1 := by
    refine ⟨.inr (.inl (by decide)), fun i hi => ?_⟩
    obtain rfl : i = 0 := by omega
    exact Heap.not_writeEndsAt_of_table (t := ⟨1⟩) hraw (by decide)
  refine ⟨?_, ?_⟩
  · exact ((newIndexWithin_of_first_end invoke (.string "height") (.integer 42) (.table ⟨0⟩) 2
      redirectingWorld).1 1 (by decide) (hfirst _ (by decide))).1 ⟨1⟩ (by decide) (.inr (by decide))
  · exact ((newIndexWithin_of_first_end invoke .nil (.integer 42) (.table ⟨0⟩) 2
      redirectingWorld).1 1 (by decide) (hfirst _ (by decide))).1 ⟨1⟩ (by decide) (.inr (by decide))

end LuaHost

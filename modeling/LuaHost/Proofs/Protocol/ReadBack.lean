import LuaHost.Proofs.Protocol.Assigning
import LuaHost.Proofs.Protocol.Reading
import LuaHost.Proofs.Table.Assignment

/-!
# LuaHost.Proofs.Protocol.ReadBack

What is assigned along a chain of delegation is read along it afterwards.

* `Heap.SameBut.metafield`, `Heap.SameBut.chain`: a change at one key leaves every metafield of another
  name as it was, also where the changed table is a metatable.
* `Heap.Coupled`: a chain along which reading is delegated to where assigning is.
* `exists_assigned`: the table in which assigning along such a chain ends.
* `index_after_newIndex`: reading with the same limit finds the assigned value there.
-/

namespace LuaHost

/-! ## Frames -/

namespace Heap

variable {h h' : Heap} {t : TableId} {key : Value}

theorem SameBut.metatable? (hsame : h.SameBut h' t key) (v : Value) :
    h'.metatable? v = h.metatable? v := by
  cases v with
  | table u =>
    by_cases hu : u = t
    · rw [hu]
      exact hsame.metatable
    · rw [Heap.metatable?, hsame.tables u hu, Heap.metatable?]
  | userdata u => rw [Heap.metatable?, userdata, hsame.userdatas, Heap.metatable?, userdata]
  | _ => rfl

theorem SameBut.get (hsame : h.SameBut h' t key) {other : Value}
    (hother : key.rawEq other = false) (u : TableId) :
    (h'.table u).get other = (h.table u).get other := by
  by_cases hu : u = t
  · rw [hu]
    exact hsame.entries other hother
  · rw [hsame.tables u hu]

theorem SameBut.metafield (hsame : h.SameBut h' t key) {name : String} (hname : key ≠ .string name)
    (v : Value) : h'.metafield v name = h.metafield v name := by
  rw [Heap.metafield, Heap.metafield, hsame.metatable?]
  split
  · exact hsame.get (Value.rawEq_string_of_ne hname) _
  · rfl

theorem SameBut.chain (hsame : h.SameBut h' t key) {field : Metafield}
    (hname : key ≠ .string field.name) (v : Value) (j : Nat) :
    h'.chain field v j = h.chain field v j := by
  induction j with
  | zero => rfl
  | succ j ih => rw [Heap.chain, Heap.chain, ih, hsame.metafield hname]

/-! ## Chains for both reading and assigning -/

/-- Every value of the chain delegates reading to where it delegates assigning, and neither to a
function. -/
structure Coupled (h : Heap) (v : Value) : Prop where
  fields : ∀ j, h.metafield (h.chain .newIndex v j) Metafield.index.name =
    h.metafield (h.chain .newIndex v j) Metafield.newIndex.name
  noFunction : ∀ j f, h.metafield (h.chain .newIndex v j) Metafield.newIndex.name ≠ .function f

theorem Coupled.chain {v : Value} (hv : h.Coupled v) (j : Nat) :
    h.chain .index v j = h.chain .newIndex v j := by
  induction j with
  | zero => rfl
  | succ j ih => rw [Heap.chain, ih, hv.fields, Heap.chain]

theorem chain_of_nil {field : Metafield} {v : Value} {j : Nat} (hnil : h.chain field v j = .nil)
    (k : Nat) : h.chain field v (j + k) = .nil := by
  induction k with
  | zero => exact hnil
  | succ k ih =>
    rw [← Nat.add_assoc, Heap.chain, ih]
    rfl

end Heap

/-! ## Assigning, then reading -/

section ReadBack

variable {invoke : Invoke} {key value v : Value} {limit : Nat} {w w' : World}

/-- Where no function is called, an assignment that succeeds is a raw one, to the table at the first end
of the chain. -/
theorem exists_assigned (hv : w.heap.Coupled v)
    (hok : newIndexWithin invoke key value limit v w = (.ok (), w')) :
    ∃ j t table, j < limit ∧ FirstAt (w.heap.WriteEndsAt key) (w.heap.chain .newIndex v) j ∧
      w.heap.chain .newIndex v j = .table t ∧ (w.heap.table t).set key value = .ok table ∧
      w'.heap = w.heap.setTable t table := by
  rcases exists_firstAt_or (w.heap.WriteEndsAt key) (w.heap.chain .newIndex v) limit with
    ⟨j, hj, hfirst⟩ | hendless
  · have hend : w.heap.rawContains key (w.heap.chain .newIndex v j) = true ∨
        w.heap.metafield (w.heap.chain .newIndex v j) Metafield.newIndex.name = .nil := by
      rcases hfirst.here with hraw | hnil | ⟨f, hf⟩
      · exact .inl hraw
      · exact .inr hnil
      · exact absurd hf (hv.noFunction j f)
    by_cases hkind : (w.heap.chain .newIndex v j).kind = .table
    · obtain ⟨t, ht⟩ := Value.exists_table_of_kind hkind
      rw [newIndexWithin_of_table hj hfirst.before ht (ht ▸ hend), rawSet_run, w.followed_heap] at hok
      split at hok
      · rename_i table hset
        refine ⟨j, t, table, hj, hfirst, ht, hset, ?_⟩
        rw [← (Prod.mk.inj hok).2]
      · cases hok
    · have hraw : w.heap.rawContains key (w.heap.chain .newIndex v j) ≠ true := by
        intro hraw
        obtain ⟨t, ht⟩ := Heap.exists_table_of_rawContains hraw
        rw [ht] at hkind
        exact hkind rfl
      rw [newIndexWithin_of_refused hj hfirst.before hkind (hend.resolve_left hraw)] at hok
      cases hok
  · rw [newIndexWithin_of_endless hendless] at hok
    cases hok

/-- The write cannot end the reading early: the values in front of its table do not hold the key, and
are none of them the table itself, or assigning would have ended there. -/
theorem not_readEndsAt_of_assigned {h h' : Heap} {t : TableId} {u : Value}
    (hsame : h.SameBut h' t key) (hindex : key ≠ .string Metafield.index.name)
    (hfields : h.metafield u Metafield.index.name = h.metafield u Metafield.newIndex.name)
    (hopen : ¬ h.WriteEndsAt key u) (hu : u ≠ .table t) : ¬ h'.ReadEndsAt key u := by
  simp only [Heap.WriteEndsAt, Heap.EndsAt, not_or, not_exists, Bool.not_eq_true] at hopen
  obtain ⟨hraw, hnil, hfun⟩ := hopen
  have hfield : h'.metafield u Metafield.index.name = h.metafield u Metafield.newIndex.name := by
    rw [hsame.metafield hindex, hfields]
  have hread : h'.rawIndex key u = .nil := by
    cases u with
    | table s =>
      have hs : s ≠ t := fun heq => hu (by rw [heq])
      rw [Heap.rawIndex, hsame.tables s hs]
      exact Table.get_of_not_contains hraw
    | _ => rfl
  rintro (hhere | hhere | ⟨f, hhere⟩)
  · exact hhere hread
  · exact hnil (hfield ▸ hhere)
  · exact hfun f (hfield ▸ hhere)

theorem rawIndex_of_assigned {h : Heap} {t : TableId} {table : Table}
    (hset : (h.table t).set key value = .ok table) :
    (h.setTable t table).rawIndex key (.table t) = value := by
  have hnan : key.isNaN = false := by
    rw [← Bool.not_eq_true]
    intro hnan
    rw [Table.set_of_isNaN _ hnan] at hset
    cases hset
  have hself : key.rawEq key = true := (Value.rawEq_iff key key).2 ⟨hnan, rfl⟩
  rw [Heap.rawIndex, h.table_setTable_same, Table.get_set hset, if_pos hself]

/-- **What is assigned along a chain is read along it.** Let every value of the chain of raw `__newindex`
fields hold the same in `__index`, and no function. If assigning a value that is not nil succeeds, at
any key but the name `__index` itself, then reading the key with the same limit gives that value, in
every world with the heap that assigning has left. It follows links only, and calls nothing. The chain
may close on itself, its values may share metatables, and the table that was assigned to may be the
metatable of others of them. -/
theorem index_after_newIndex (hindex : key ≠ .string Metafield.index.name) (hvalue : value ≠ .nil)
    (hv : w.heap.Coupled v)
    (hok : newIndexWithin invoke key value limit v w = (.ok (), w'))
    (invoke' : Invoke) {u : World} (hu : u.heap = w'.heap) :
    ∃ n, n < limit ∧ indexWithin invoke' key limit v u = (.ok value, u.followed .index v n) := by
  obtain ⟨j, t, table, hj, hfirst, ht, hset, hheap⟩ := exists_assigned hv hok
  have hsame : w.heap.SameBut u.heap t key := by
    rw [hu, hheap]
    exact Heap.sameBut_set hset
  have hchain (i : Nat) : u.heap.chain .index v i = w.heap.chain .newIndex v i := by
    rw [hsame.chain hindex, hv.chain]
  have hbefore : ∀ i, i < j → ¬ u.heap.ReadEndsAt key (u.heap.chain .index v i) := by
    intro i hi
    have hopen := hfirst.before i hi
    rw [hchain]
    refine not_readEndsAt_of_assigned hsame hindex (hv.fields i) hopen ?_
    intro heq
    rw [heq, ← ht] at hopen
    exact hopen hfirst.here
  have hread : u.heap.rawIndex key (u.heap.chain .index v j) = value := by
    rw [hchain, ht, hu, hheap]
    exact rawIndex_of_assigned hset
  obtain ⟨s, hhop, hget⟩ := Heap.indexHop_of_rawIndex (hread ▸ hvalue)
  refine ⟨j, hj, ?_⟩
  rw [indexWithin_of_hop hj hbefore hhop nofun, finishIndex_settled, u.followed_heap, ← hget, hread]

end ReadBack

/-- Userdata 0 delegates to table 0, and table 0 to its own metatable, table 1. -/
def coupledWorld : World where
  heap :=
    { tables := ⟨#[
        { metatable := some ⟨1⟩ },
        { entries := [(.string "__index", .table ⟨1⟩), (.string "__newindex", .table ⟨1⟩)] },
        { entries := [(.string "__index", .table ⟨0⟩), (.string "__newindex", .table ⟨0⟩)] }]⟩
      userdatas := ⟨#[{ payload := .integer 0, metatable := some ⟨2⟩ }]⟩ }

theorem coupled_coupledWorld : coupledWorld.heap.Coupled (.userdata ⟨0⟩) := by
  have hend (i : Nat) : coupledWorld.heap.chain .newIndex (.userdata ⟨0⟩) (i + 3) = .nil := by
    rw [Nat.add_comm]
    exact Heap.chain_of_nil (by decide) i
  refine ⟨fun j => ?_, fun j f => ?_⟩
  · match j with
    | 0 | 1 | 2 => decide
    | i + 3 =>
      rw [hend]
      rfl
  · match j with
    | 0 | 1 | 2 => exact nofun
    | i + 3 =>
      rw [hend]
      exact nofun

theorem index_after_newIndex_coupled :
    let run := newIndexWithin invoke (.string "height") (.integer 42) 3 (.userdata ⟨0⟩) coupledWorld
    run.1 = .ok () ∧ (run.2.heap.table ⟨1⟩).get (.string "height") = .integer 42 ∧
      (indexWithin invoke (.string "height") 3 (.userdata ⟨0⟩) run.2).1 = .ok (.integer 42) := by
  intro run
  have hok : run = (.ok (), run.2) := rfl
  obtain ⟨n, -, hread⟩ := index_after_newIndex (by decide) (by decide)
    coupled_coupledWorld hok invoke rfl
  exact ⟨rfl, rfl, by rw [hread]⟩

end LuaHost

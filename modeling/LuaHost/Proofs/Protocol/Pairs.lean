import LuaHost.Proofs.Protocol.Looping
import LuaHost.Proofs.Protocol.Unmediated
import LuaHost.Proofs.Table.Traversal

/-!
# LuaHost.Proofs.Protocol.Pairs

The loop over the entries of a table, while a body may assign new values to its keys.

* `nextStep_entry`, `nextStep_end`: one step of the traversal.
* `Heap.Traverses`: the invariant of the loop. All keys are still there, and in their order.
* `course_of_resumes`: what the loop goes through from any key on, by induction on the keys that are
  left.
* `pairs_visits_entries`: the whole loop, and the raw traversal.
-/

namespace LuaHost

open Operation

/-! ## One step -/

section Step

variable {t : TableId} {control : Value} {w : World}

theorem nextStep_table : nextStep [.table t, control] w = (do
    let pair ← build (nextPair (w.heap.table t) (some control))
    if pair.length = 0 then build (Returns.ofList [.nil]) else build pair.toReturns) w :=
  rfl

theorem nextStep_end (h : (w.heap.table t).next? (some control) = none) :
    stepOutcome (nextStep [.table t, control] w).1 = .error .finished := by
  rw [nextStep_table, nextPair, h]
  rfl

/-- A key that is not nil keeps the pair from being taken for the end. -/
theorem nextStep_entry {key value : Value}
    (h : (w.heap.table t).next? (some control) = some (key, value)) (hkey : key ≠ .nil) :
    stepOutcome (nextStep [.table t, control] w).1 = .ok (key, value) ∧
      (nextStep [.table t, control] w).2.heap = w.heap := by
  rw [nextStep_table, nextPair, h]
  cases key with
  | nil => exact absurd rfl hkey
  | _ => cases value with
    | _ => exact ⟨rfl, rfl⟩

end Step

/-! ## The loop -/

/-- The heaps in which a traversal of the table that was begun with the function goes on: the function
steps through tables, and values of the table may have been replaced. -/
structure Heap.Traverses (table : Table) (t : TableId) (f : FunctionId) (h : Heap) : Prop where
  table : table.Overwritten (h.table t)
  step : h.body f = .next

section Loop

variable {table : Table} {t : TableId} {f : FunctionId}

theorem course_of_resumes (depth : Nat) (hwf : table.WellFormed) {n : Nat} {control : Value}
    (hat : table.Resumes n (some control)) :
    Course (Heap.Traverses table t f) (fun h key => (h.table t).get key)
      (fun control => call (invokeAt (depth + 1)) (.function f) [.table t, control]) .finished
      control ((Entries.keys table.entries).drop n) := by
  generalize hleft : (Entries.keys table.entries).drop n = left
  induction left generalizing n control with
  | nil =>
    have hlast : table.count ≤ n := by
      rw [Table.count, ← Entries.length_keys]
      exact List.drop_eq_nil_iff.1 hleft
    refine .ends fun w hw => ?_
    have hnext := (hw.table.wellFormed hwf).next?_of_resumes (hw.table.resumes hat)
    have hcount := hw.table.count_eq
    rw [List.getElem?_eq_none (show (w.heap.table t).count ≤ n by omega)] at hnext
    rw [call_next hw.step]
    exact nextStep_end hnext
  | cons key rest ih =>
    have hkey : (Entries.keys table.entries)[n]? = some key := by
      rw [← List.head?_drop, hleft, List.head?_cons]
    have hmem := List.mem_of_getElem? hkey
    have hrest : (Entries.keys table.entries).drop (n + 1) = rest := by
      rw [← List.tail_drop, hleft, List.tail_cons]
    refine .visits (fun w hw => ?_) (ih (.after hkey (hwf.rawEq_self hmem)) hrest)
    have hwf' := hw.table.wellFormed hwf
    have hnext := hwf'.next?_of_resumes (hw.table.resumes hat)
    rw [← hw.table.keys, Entries.keys, List.getElem?_map, Option.map_eq_some_iff] at hkey
    obtain ⟨⟨_, value⟩, hentry, rfl⟩ := hkey
    rw [hentry] at hnext
    rw [call_next hw.step, hwf'.get_of_mem (List.mem_of_getElem? hentry)]
    exact nextStep_entry hnext (hwf.keys _ hmem).notNil

/-- Without the field, the loop head is the traversal step, the table and nil. -/
theorem pairs_of_lacks (invoke : Invoke) {w : World} (h : w.heap.Lacks t .pairs) :
    ∃ results w', pairs invoke (.table t) w = (.ok results, w') ∧
      results.get 0 = .function (w.heap.newFunction .next).1 ∧ results.get 1 = .table t ∧
      results.get 2 = .nil ∧ w'.heap = (w.heap.newFunction .next).2 := by
  have habsent : w.heap.metavalue (.table t) .pairs = .absent := by
    rw [Heap.metavalue, h.metafield]
    rfl
  rw [pairs, getHeap_bind, habsent]
  exact ⟨_, _, rfl, rfl, rfl, rfl, rfl⟩

end Loop

/-- What may happen to a heap while the table is traversed: keys that are present are assigned values
other than nil, and the functions stay what they are. All else is free to change. -/
structure Heap.Overwrites (h h' : Heap) (t : TableId) : Prop where
  table : (h.table t).Overwritten (h'.table t)
  functions : ∀ f, h.body f = .next → h'.body f = .next

theorem Heap.Overwrites.of_set {h : Heap} {t : TableId} {key value : Value} {table : Table}
    (hset : (h.table t).set key value = .ok table) (hpresent : (h.table t).contains key = true)
    (hvalue : value ≠ .nil) : h.Overwrites (h.setTable t table) t where
  table := by
    rw [h.table_setTable_same]
    exact .set .refl hpresent hvalue hset
  functions _ hf := hf

/-- **The loop over a table visits every entry once.** The table has no `__pairs`, and its entries may
be in any order. A loop with room for more steps than there are entries is finished: one step for each
entry, and one that ends it. The keys come in the order of the entries, and to each key that is present
there is exactly one. All this stays so when a body assigns new values to present keys; every value is
then the one of the moment. The raw traversal does the same, from no key or from a key in either number
subtype, and nothing follows a key that is absent, NaN among them. -/
theorem pairs_visits_entries (depth : Nat) (w : World) (t : TableId)
    (hwf : (w.heap.table t).WellFormed) (hlacks : w.heap.Lacks t .pairs) :
    let table := w.heap.table t
    let keys := Entries.keys table.entries
    let invoke := invokeAt (depth + 1)
    let head := pairs invoke (.table t)
    let ending (bound : Nat) := if table.count < bound then LoopEnd.finished else .cut
    (∀ key, keys.countP (·.rawEq key) = if table.contains key then 1 else 0) ∧
    (∀ bound, (looping head (fun step state => forLoop invoke step state bound) w).1 =
      .ok (table.entries.take bound, ending bound)) ∧
    (∀ body : Value → Value → Operation Unit,
      (∀ key value (w' : World), table.Overwritten (w'.heap.table t) →
        ∃ w'', body key value w' = (.ok (), w'') ∧ w'.heap.Overwrites w''.heap t) →
      ∀ bound, ∃ visits,
        (looping head (fun step state => forLoopWith invoke step state body bound) w).1 =
          .ok (visits, ending bound) ∧
        visits.map Visit.key = keys.take bound ∧
        ∀ visit ∈ visits, visit.value ≠ .nil ∧ table.Overwritten (visit.heap.table t) ∧
          (visit.heap.table t).get visit.key = visit.value) ∧
    (∀ bound, table.traverse bound none = table.entries.take bound) ∧
    (∀ tables : Nat → Table, tables 0 = table → (∀ n, (tables n).Overwritten (tables (n + 1))) →
      ∀ bound i, (Table.traverseThrough tables bound none)[i]? =
        if i < bound then (tables i).entries[i]? else none) ∧
    (∀ key other, key.rawEq other = true → table.next? (some key) = table.next? (some other)) ∧
    (∀ key, key ≠ .nil → table.contains key = false → table.next? (some key) = none) ∧
    ∀ key : Value, key.isNaN = true → table.next? (some key) = none := by
  intro table keys invoke head ending
  obtain ⟨results, w', hhead, hstep, hstate, hcontrol, hheap⟩ := pairs_of_lacks invoke hlacks
  have hstart : w'.heap.Traverses table t (w.heap.newFunction .next).1 := by
    rw [hheap]
    exact ⟨.refl, w.heap.body_newFunction_same .next⟩
  have hcount : keys.length = table.count := Entries.length_keys _
  have hcourse := course_of_resumes (t := t) (f := (w.heap.newFunction .next).1) depth hwf .nil
  rw [List.drop_zero] at hcourse
  refine ⟨hwf.countP_keys, ?_, ?_, hwf.traverse_eq_take, ?_, fun key other h => table.next?_congr h,
    fun key hnil h => Table.next?_of_absent hnil h, ?_⟩
  · intro bound
    -- without a body the values stay as they were at the start
    have hsame : w'.heap.table t = table := by
      rw [hheap]
      rfl
    have hloop := forLoop_of_course
      (hcourse.mono (Q := fun h => h.Traverses table t _ ∧ h.table t = table) fun _ h => h.1)
      bound ⟨hstart, hsame⟩ table.get fun h key hh => by rw [hh.2]
    rw [looping_of_ok hhead, hstep, hstate, hcontrol, hloop, List.map_take, ← hwf.entries_eq,
      hcount]
  · intro body hbody bound
    have hkeeps : Keeps (Heap.Traverses table t (w.heap.newFunction .next).1) body := by
      intro key value w' hw'
      obtain ⟨w'', hrun, hchange⟩ := hbody key value w' hw'.table
      exact ⟨w'', hrun, hw'.table.trans hchange.table, hchange.functions _ hw'.step⟩
    obtain ⟨visits, hvisits, hkeys, hvalues⟩ := forLoopWith_of_course hkeeps hcourse bound hstart
    rw [looping_of_ok hhead, hstep, hstate, hcontrol, hvisits, hcount]
    refine ⟨visits, rfl, hkeys, fun visit hvisit => ?_⟩
    obtain ⟨hvisit', hvalue⟩ := hvalues visit hvisit
    have hkey : visit.key ∈ keys := by
      refine List.mem_of_mem_take (i := bound) ?_
      rw [← hkeys]
      exact List.mem_map_of_mem hvisit
    refine ⟨?_, hvisit'.table, hvalue.symm⟩
    rw [hvalue]
    exact hvisit'.table.get_ne_nil hwf hkey
  · intro tables hfirst hsteps bound i
    rw [Table.getElem?_traverseThrough (hfirst ▸ hwf) hsteps .start, Nat.zero_add]
  · intro key hnan
    refine Table.next?_of_absent ?_ (table.not_contains_of_isNaN hnan)
    rintro rfl
    cases hnan

/-- Table 0 has two elements and one more entry. Its metatable, table 1, has a name only. -/
def listedWorld : World where
  heap := { tables := ⟨#[
    { entries := [(.integer 1, .string "x"), (.integer 2, .boolean true), (.string "n", .integer 2)],
      metatable := some ⟨1⟩ },
    { entries := [(.string "name", .string "list")] }]⟩ }

/-- The body overwrites the last entry before it is reached, and its new value is visited. -/
theorem pairs_visits_entries_overwriting :
    let h := listedWorld.heap
    let head := pairs (invokeAt 1) (.table ⟨0⟩)
    let body : Value → Value → Operation Unit := fun _ _ => rawSet ⟨0⟩ (.string "n") (.integer 9)
    (h.table ⟨0⟩).WellFormed ∧ h.Lacks ⟨0⟩ .pairs ∧
    (looping head (fun step state => forLoop (invokeAt 1) step state 4) listedWorld).1 =
      .ok ((h.table ⟨0⟩).entries, .finished) ∧
    ∃ visits, (looping head (fun step state => forLoopWith (invokeAt 1) step state body 4)
        listedWorld).1 = .ok (visits, .finished) ∧
      visits.map Visit.pair =
        [(.integer 1, .string "x"), (.integer 2, .boolean true), (.string "n", .integer 9)] := by
  intro h head body
  have hwf : (h.table ⟨0⟩).WellFormed :=
    ((Table.wellFormed_ofList [.string "x", .boolean true]).put (Value.isKey_string "n")
      (.integer 2)).of_entries rfl
  have hlacks : h.Lacks ⟨0⟩ .pairs := by
    rintro m hm
    cases hm
    rfl
  obtain ⟨-, hloop, hbodies, -⟩ := pairs_visits_entries 0 listedWorld ⟨0⟩ hwf hlacks
  have hbody : ∀ key value (w' : World), (h.table ⟨0⟩).Overwritten (w'.heap.table ⟨0⟩) →
      ∃ w'', body key value w' = (.ok (), w'') ∧ w'.heap.Overwrites w''.heap ⟨0⟩ := by
    intro key value w' hw'
    have hpresent : (w'.heap.table ⟨0⟩).contains (.string "n") = true := by
      rw [hw'.contains_eq]
      rfl
    exact ⟨_, rawSet_run _ _ _ _, .of_set rfl hpresent nofun⟩
  obtain ⟨visits, hvisits, -⟩ := hbodies body hbody 4
  have hrun : (looping head (fun step state => forLoopWith (invokeAt 1) step state body 4)
      listedWorld).1.map (fun result => result.1.map Visit.pair) =
      .ok [(.integer 1, .string "x"), (.integer 2, .boolean true), (.string "n", .integer 9)] := by
    decide +kernel
  rw [hvisits] at hrun
  exact ⟨hwf, hlacks, hloop 4, visits, hvisits, Except.ok.inj hrun⟩

end LuaHost

import LuaHost.Proofs.Heap.WellFormed
import LuaHost.Proofs.Host.Preserves

/-!
# LuaHost.Proofs.Host.Changes

What a request does to the heap itself, apart from the functions that it calls.

* `Heap.assignee?`: the table that an assignment comes to.
* `Request.Changes`: the change that a request makes of the heap in which it is asked.
* `preserved_answer`: a request keeps a property of the heap that its change keeps, and that functions
  and shifts keep.
-/

namespace LuaHost

open Operation

/-! ## Changes -/

/-- The table in which the assignment is made, unless a function is called or none is reached. -/
def Heap.assignee? (h : Heap) (key : Value) : (limit : Nat) → (v : Value) → Option TableId
  | 0, _ => none
  | limit + 1, v =>
    match h.newIndexHop key v with
    | .settled t => some t
    | .link next => assignee? h key limit next
    | _ => none

/-- The request, asked in the first heap, itself makes the second of it. Insertion and removal are left
out: they change the heap in which the length was reported. -/
inductive Request.Changes (h : Heap) : Request → Heap → Prop where
  | newTable (values : List Value) :
      Changes h (.newTable values) (h.newTable (Table.ofList values)).2
  | fromJson (json : Json) : Changes h (.fromJson json) (json.toValue.run h).2
  | editTable {t : TableId} {edit : Table.Edit} {results : List Value} {table : Table} :
      edit.apply (h.table t) = .ok (results, table) →
      Changes h (.editTable t edit) (h.setTable t table)
  | assignMetatable (t : TableId) (metatable : Option TableId) :
      Changes h (.assignMetatable t metatable) (h.setTableMetatable t metatable)
  | writePayload (u : UserdataId) (payload : Payload) :
      Changes h (.writePayload u payload) (h.setPayload u payload)
  | setTableMetatable {t : TableId} {metatable : Option TableId} :
      h.metafield (.table t) Metafield.metatable.name = .nil →
      Changes h (.setMetatable (.table t) metatable) (h.setTableMetatable t metatable)
  | setUserdataMetatable {u : UserdataId} {metatable : Option TableId} :
      h.metafield (.userdata u) Metafield.metatable.name = .nil →
      Changes h (.setMetatable (.userdata u) metatable) (h.setUserdataMetatable u metatable)
  | newIndex {v key value : Value} {t : TableId} {table : Table} :
      h.assignee? key defaultHopLimit v = some t → (h.table t).set key value = .ok table →
      Changes h (.newIndex v key value) (h.setTable t table)
  | pairs (v : Value) : Changes h (.pairs v) (h.newFunction .next).2
  | ipairs (v : Value) : Changes h (.ipairs v) (h.newFunction .ipairs).2

/-! ## What requests keep -/

section Preserved

variable {P : Heap → Prop} {w : World} (hw : P w.heap)

include hw in
theorem preserved_rawSet {t : TableId} {key value : Value}
    (hset : ∀ table, (w.heap.table t).set key value = .ok table → P (w.heap.setTable t table)) :
    P (rawSet t key value w).2.heap := by
  rw [rawSet, getHeap_bind]
  cases htable : (w.heap.table t).set key value with
  | ok table => exact hset table htable
  | error e => exact hw

include hw in
theorem preserved_setMetatable {v : Value} {metatable : Option TableId}
    (hchange : ∀ h', (Request.setMetatable v metatable).Changes w.heap h' → P h') :
    P (setMetatable v metatable w).2.heap := by
  rw [setMetatable, getHeap_bind]
  split
  · exact hw
  · rename_i hopen
    have hnil : w.heap.metafield v Metafield.metatable.name = .nil := by
      cases hfield : w.heap.metafield v Metafield.metatable.name with
      | nil => rfl
      | _ => exact absurd (by rw [hfield]; rfl) hopen
    split
    · exact hchange _ (.setTableMetatable hnil)
    · exact hchange _ (.setUserdataMetatable hnil)
    · exact hw

variable {invoke : Invoke} (hinvoke : ∀ f args, Preserves P (invoke f args))
include hw hinvoke

theorem preserved_newIndexWithin {key value : Value} {limit : Nat} {v : Value}
    (hset : ∀ t table, w.heap.assignee? key limit v = some t →
      (w.heap.table t).set key value = .ok table → P (w.heap.setTable t table)) :
    P (newIndexWithin invoke key value limit v w).2.heap := by
  induction limit generalizing v w with
  | zero => exact hw
  | succ limit ih =>
    rw [newIndexWithin, getHeap_bind]
    rw [Heap.assignee?] at hset
    cases hhop : w.heap.newIndexHop key v with
    | settled t =>
      rw [hhop] at hset
      exact preserved_rawSet hw fun table => hset t table rfl
    | refused => exact hw
    | handler f =>
      have hcall : Preserves P (invoke f [v, key, value] >>= fun _ => pure ()) :=
        .bind (hinvoke _ _) fun _ => .pure _
      exact hcall { w with events := w.events.push (.callingFor .newIndex key) } hw
    | link next =>
      rw [hhop] at hset
      exact ih (w := { w with events := w.events.push (.following .newIndex next.kind) }) hw hset

theorem preserved_pairs {v : Value}
    (hchange : ∀ h', (Request.pairs v).Changes w.heap h' → P h') : P (pairs invoke v w).2.heap := by
  have hcall (handler : Metavalue) :
      Preserves P (call invoke handler.toValue [v] >>= fun results => pure (results.take 3)) :=
    .bind (.call hinvoke _ _) fun _ => .pure _
  unfold pairs
  rw [getHeap_bind]
  cases w.heap.metavalue v .pairs with
  | absent =>
    cases v with
    | table t => exact hchange _ (.pairs _)
    | _ => exact hw
  | callable f => exact hcall (.callable f) w hw
  | indexable next => exact hcall (.indexable next) w hw

variable (hshift : ∀ h t table, (h.table t).Shifts table → P h → P (h.setTable t table))
include hshift

/-- The handler of the length may have changed the table, which is read again after it. -/
theorem preserved_tableInsert (t : TableId) (position : Option Int64) (value : Value) :
    P (tableInsert invoke t position value w).2.heap := by
  refine Preserves.bindAt (Preserves.lengthInteger hinvoke _ w hw) fun length => ?_
  refine .readOk fun u table hu hins => ?_
  exact hshift _ t table (.insert hins) hu

theorem preserved_tableRemove (t : TableId) (position : Option Int64) :
    P (tableRemove invoke t position w).2.heap := by
  refine Preserves.bindAt (Preserves.lengthInteger hinvoke _ w hw) fun length => ?_
  refine .readOk ?_
  rintro u ⟨removed, table⟩ hu hrem
  exact hshift _ t table (.remove hrem) hu

/-- The requests that only read the heap keep what functions keep. -/
theorem preserved_answer {request : Request}
    (hchange : ∀ h', request.Changes w.heap h' → P h') : P (answer invoke request w).2.heap := by
  have hread {α : Type} {x : Operation α} (hx : Preserves P x) (f : α → List Value) :
      P ((x >>= fun a => pure (f a)) w).2.heap := Preserves.bindAt (hx w hw) fun _ => .pure _
  cases request with
  | newTable values => exact hchange _ (.newTable values)
  | fromJson json => exact hchange _ (.fromJson json)
  | editTable t edit =>
    rw [answer, getHeap_bind]
    cases hedit : edit.apply (w.heap.table t) with
    | ok outcome => exact hchange _ (.editTable hedit)
    | error e => exact hw
  | assignMetatable t metatable => exact hchange _ (.assignMetatable t metatable)
  | writePayload u payload => exact hchange _ (.writePayload u payload)
  | readPayload u =>
    rw [answer, getHeap_bind]
    cases w.heap.payload u with
    | integer i => exact hw
    | text s => exact hw
  | setMetatable v metatable =>
    exact Preserves.bindAt (preserved_setMetatable hw hchange) fun _ => .pure _
  | newIndex v key value =>
    have hset (t : TableId) (table : Table)
        (ht : w.heap.assignee? key defaultHopLimit v = some t)
        (htable : (w.heap.table t).set key value = .ok table) : P (w.heap.setTable t table) :=
      hchange _ (.newIndex ht htable)
    exact Preserves.bindAt (preserved_newIndexWithin hw hinvoke hset) fun _ => .pure _
  | index v key => exact hread (.indexWithin hinvoke _ _ _) _
  | length v => exact hread (.length hinvoke v) _
  | call f args => exact hread (.call hinvoke f args) _
  | equals a b => exact hread (.valuesEqual hinvoke a b) _
  | pairs v => exact Preserves.bindAt (preserved_pairs hw hinvoke hchange) fun _ => .pure _
  | ipairs v => exact hchange _ (.ipairs v)
  | tableInsert t position value =>
    exact Preserves.bindAt (preserved_tableInsert hw hinvoke hshift t position value) fun _ => .pure _
  | tableRemove t position =>
    exact Preserves.bindAt (preserved_tableRemove hw hinvoke hshift t position) fun _ => .pure _
  | tableConcat t separator first last =>
    exact hread (.tableConcat hinvoke t separator first last) _
  | _ => exact hw

end Preserved
end LuaHost

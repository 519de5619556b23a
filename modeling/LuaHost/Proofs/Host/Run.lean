import LuaHost.Proofs.Host.Asked
import LuaHost.Proofs.Host.Changes

/-!
# LuaHost.Proofs.Host.Run

Runs of a host: any steps in any order, each of which may fail, with functions of the host's own.

* `World.after`: the world that a run leaves.
* `World.preserved_after`, `AllAsked.after`: a property of the heap that every step keeps, or every request
  that is asked, holds after every run.
* `entries_after`: what holds of the entries of every table that a run from the empty world can leave.
-/

namespace LuaHost

open Operation

/-! ## Runs -/

inductive Step where
  | newUserdata (data : Userdata)
  | newFunction (body : Body)
  | request (request : Request)
  | newIndexWithin (limit : Nat) (v key value : Value)

def perform (depth : Nat) : Step → Operation (List Value)
  | .newUserdata data => do
    let u ← changeHeap (·.newUserdata data)
    pure [.userdata u]
  | .newFunction body => do
    let f ← newFunction body
    pure [f]
  | .request request => answer (invokeAt depth) request
  | .newIndexWithin limit v key value => do
    newIndexWithin (invokeAt depth) key value limit v
    pure []

/-- The world after the steps. A step that fails leaves a world as well, and the next starts from it. -/
def World.after (depth : Nat) (w : World) (steps : List Step) : World :=
  steps.foldl (fun w step => (perform depth step w).2) w

theorem World.preserved_after {P : Heap → Prop} {depth : Nat}
    (hstep : ∀ step : Step, Preserves P (perform depth step)) (steps : List Step) {w : World}
    (hw : P w.heap) : P (World.after depth w steps).heap := by
  induction steps generalizing w with
  | nil => exact hw
  | cons step rest ih =>
    have hnext := hstep step w hw
    exact ih hnext

/-- Where the run goes on only with allowed requests, it is enough that these keep the property. -/
theorem AllAsked.after {P : Heap → Prop} {allowed : Request → Heap → Prop} (hkept : KeptBy P allowed)
    {depth : Nat} {requests before : List Request} {w : World} (hw : P w.heap)
    (hall : AllAsked allowed depth (.requests requests) w) (hbefore : before <+: requests) :
    P (World.after depth w (before.map .request)).heap := by
  induction requests generalizing before w with
  | nil =>
    rw [List.prefix_nil.1 hbefore]
    exact hw
  | cons request rest ih =>
    cases before with
    | nil => exact hw
    | cons first before =>
      obtain ⟨rfl, hrest⟩ := List.cons_prefix_cons.1 hbefore
      have hnext := answer hkept hw fun r u inner hasked => hall r u inner (.head hasked)
      exact ih (w := (LuaHost.answer (LuaHost.invokeAt depth) first w).2) hnext
        (fun r u inner hasked => hall r u inner (.tail hasked)) hrest

/-! ## Every step keeps the tables well-formed -/

theorem Request.Changes.wellFormed {request : Request} {h h' : Heap}
    (hchange : request.Changes h h') (hh : h.WellFormed) : h'.WellFormed := by
  cases hchange with
  | newTable values => exact hh.newTable (Table.wellFormed_ofList values)
  | fromJson json => exact Json.wellFormed_toValue json hh
  | editTable hedit => exact hh.setTable _ ((hh _).apply hedit)
  | assignMetatable t metatable => exact hh.setTableMetatable t metatable
  | writePayload u payload => exact hh.of_tables rfl
  | setTableMetatable _ => exact hh.setTableMetatable _ _
  | setUserdataMetatable _ => exact hh.of_tables rfl
  | newIndex _ hset => exact hh.setTable _ ((hh _).set hset)
  | pairs v => exact hh.of_tables rfl
  | ipairs v => exact hh.of_tables rfl

theorem keptBy_wellFormed : KeptBy Heap.WellFormed fun _ _ => True := by
  intro invoke request w hinvoke hw _
  refine preserved_answer hw hinvoke ?_ fun _ hchange => hchange.wellFormed hw
  exact fun h t table hshifts hh => hh.setTable t (Table.WellFormed.stable.shifts (hh t) hshifts)

theorem wellFormed_perform (depth : Nat) (step : Step) :
    Preserves Heap.WellFormed (perform depth step) := by
  have hinvoke (f : FunctionId) (args : List Value) :
      Preserves Heap.WellFormed (invokeAt depth f args) :=
    fun _ hw => AllAsked.invokeAt keptBy_wellFormed hw fun _ _ _ _ => trivial
  intro w hw
  cases step with
  | newUserdata data => exact hw.of_tables rfl
  | newFunction body => exact hw.of_tables rfl
  | request request => exact keptBy_wellFormed _ request w hinvoke hw trivial
  | newIndexWithin limit v key value =>
    refine Preserves.bindAt (preserved_newIndexWithin hw hinvoke ?_) fun _ => .pure _
    intro t table _ hset
    exact hw.setTable t ((hw t).set hset)

theorem World.wellFormed_after (depth : Nat) (steps : List Step) :
    (World.after depth {} steps).heap.WellFormed :=
  World.preserved_after (wellFormed_perform depth) steps Heap.wellFormed_empty

/-- **The entries of every table that a run can leave**, whatever its steps, whichever of them fail and
whatever functions they call: no value is nil, every key is in the form in which it is stored, and no
two keys are raw-equal. So a key is present exactly if it does not read as nil. -/
theorem entries_after (depth : Nat) (steps : List Step) (t : TableId) :
    let table := (World.after depth {} steps).heap.table t
    (∀ entry ∈ table.entries, entry.2 ≠ .nil) ∧
    (∀ entry ∈ table.entries, entry.1 ≠ .nil ∧
      ∀ x, entry.1 = .float x → x.isNaN = false ∧ x.int64? = none) ∧
    (∀ (i j : Nat) (hi : i < table.entries.length) (hj : j < table.entries.length), i ≠ j →
      table.entries[i].1.rawEq table.entries[j].1 = false) ∧
    ∀ key, table.contains key = true ↔ table.get key ≠ .nil := by
  intro table
  have htable : table.WellFormed := World.wellFormed_after depth steps t
  refine ⟨htable.values, ?_, ?_, htable.contains_iff⟩
  · intro entry hentry
    have hkey : entry.1.IsKey := htable.keys entry.1 (List.mem_map_of_mem hentry)
    refine ⟨hkey.notNil, ?_⟩
    intro x hx
    have hnan := hkey.notNaN
    rw [hx] at hnan
    exact ⟨hnan, hkey.notIntegral x hx⟩
  · have hordered := List.pairwise_iff_getElem.1 (List.pairwise_map.1 htable.distinct)
    intro i j hi hj hij
    rcases Nat.lt_or_gt_of_ne hij with hlt | hgt
    · exact hordered i j hi hj hlt
    · rw [Value.rawEq_comm]
      exact hordered j i hj hi hgt

/-- The second step is refused, and the third assigns at the float 2.0. -/
def refusedRun : List Step := [
  .request (.newTable [.integer 10, .nil, .integer 30]),
  .request (.editTable ⟨0⟩ (.set .nil (.integer 1))),
  .request (.newIndex (.table ⟨0⟩) (.float ⟨0x4000000000000000⟩) (.integer 20))]

theorem entries_after_refusedRun :
    let table := (World.after 1 {} refusedRun).heap.table ⟨0⟩
    table.entries =
      [(.integer 1, .integer 10), (.integer 3, .integer 30), (.integer 2, .integer 20)] ∧
    ∀ key, table.contains key = true ↔ table.get key ≠ .nil := by
  obtain ⟨_, _, _, hcontains⟩ := entries_after 1 refusedRun ⟨0⟩
  exact ⟨rfl, hcontains⟩

end LuaHost

import LuaHost.Host.Invoke

/-!
# LuaHost.Proofs.Host.Preserves

Properties of the heap that operations keep, whether they succeed or fail.

* `Operation.Preserves`: a heap with the property is left as one. `Preserves.bind` and its kin take a
  sequence of operations apart.
* `Preserves.indexWithin`, `Preserves.call` and the like: operations that only read the heap keep what
  the functions they call keep.
-/

namespace LuaHost

open Operation

def Operation.Preserves {α : Type} (P : Heap → Prop) (x : Operation α) : Prop :=
  ∀ w, P w.heap → P (x w).2.heap

namespace Operation.Preserves

variable {α β : Type} {P : Heap → Prop}

/-! ## Steps and their sequences -/

theorem pure (a : α) : Preserves P (pure a) := by
  intro w hw
  exact hw

theorem fail (e : Error) : Preserves P (fail e : Operation α) := by
  intro w hw
  exact hw

theorem ofExcept (outcome : Except Error α) : Preserves P (ofExcept outcome) := by
  cases outcome with
  | ok a => exact pure a
  | error e => exact fail e

theorem getHeap : Preserves P getHeap := by
  intro w hw
  exact hw

theorem emit (event : Event) : Preserves P (emit event) := by
  intro w hw
  exact hw

theorem build (x : Build α) : Preserves P (build x) := by
  intro w hw
  exact hw

/-- What comes first may keep the property only in this world. -/
theorem bindAt {x : Operation α} {f : α → Operation β} {w : World} (hx : P (x w).2.heap)
    (hf : ∀ a, Preserves P (f a)) : P ((x >>= f) w).2.heap := by
  cases hrun : x w with
  | mk outcome w' =>
    rw [hrun] at hx
    cases outcome with
    | ok a =>
      rw [bind_of_ok hrun]
      exact hf a w' hx
    | error e =>
      rw [bind_of_error hrun]
      exact hx

theorem bind {x : Operation α} {f : α → Operation β} (hx : Preserves P x)
    (hf : ∀ a, Preserves P (f a)) : Preserves P (x >>= f) :=
  fun w hw => bindAt (hx w hw) hf

/-- What is written back may depend on the heap that was read. -/
theorem read {f : Heap → Operation β} (hf : ∀ w, P w.heap → P (f w.heap w).2.heap) :
    Preserves P (Operation.getHeap >>= f) := by
  intro w hw
  rw [getHeap_bind]
  exact hf w hw

theorem readOk {outcome : Heap → Except Error α} {f : Heap → α → Operation β}
    (hf : ∀ w a, P w.heap → outcome w.heap = .ok a → P (f w.heap a w).2.heap) :
    Preserves P (Operation.getHeap >>= fun h => Operation.ofExcept (outcome h) >>= f h) := by
  refine read fun w hw => ?_
  cases houtcome : outcome w.heap with
  | error e => exact hw
  | ok a => exact hf w a hw houtcome

/-! ## The protocol -/

section Protocol

variable {invoke : Invoke} (hinvoke : ∀ f args, Preserves P (invoke f args))
include hinvoke

theorem indexWithin (key : Value) (limit : Nat) (v : Value) :
    Preserves P (indexWithin invoke key limit v) := by
  induction limit generalizing v with
  | zero => exact fail _
  | succ limit ih =>
    refine bind getHeap fun h => ?_
    split
    · exact pure _
    · exact fail _
    · refine bind (emit _) fun _ => ?_
      exact bind (hinvoke _ _) fun results => pure _
    · exact bind (emit _) fun _ => ih _

theorem call (v : Value) (args : List Value) : Preserves P (call invoke v args) := by
  unfold LuaHost.call
  split
  · exact hinvoke _ _
  · refine bind getHeap fun h => ?_
    split
    · exact bind (emit _) fun _ => hinvoke _ _
    · exact fail _

theorem length (v : Value) : Preserves P (length invoke v) := by
  unfold LuaHost.length
  split
  · exact pure _
  · refine bind getHeap fun h => ?_
    split
    · split
      · exact pure _
      · exact fail _
    · refine bind (emit _) fun _ => ?_
      exact bind (call hinvoke _ _) fun results => pure _

theorem lengthInteger (v : Value) : Preserves P (lengthInteger invoke v) := by
  refine bind (length hinvoke v) fun result => ?_
  split
  · exact pure _
  · exact fail _

theorem valuesEqual (a b : Value) : Preserves P (valuesEqual invoke a b) := by
  refine bind getHeap fun h => ?_
  split
  · exact pure _
  · split
    · exact pure _
    · split
      · exact pure _
      · refine bind (emit _) fun _ => ?_
        exact bind (call hinvoke _ _) fun results => pure _

theorem tableConcat (t : TableId) (separator : String) (first last : Option Int64) :
    Preserves P (tableConcat invoke t separator first last) := by
  have hrest (last : Int64) : Preserves P (Operation.getHeap >>= fun h =>
      Operation.ofExcept ((h.table t).concatRange separator (first.getD 1) last)) :=
    bind getHeap fun h => ofExcept _
  cases last with
  | some last => exact hrest last
  | none => exact bind (lengthInteger hinvoke _) hrest

theorem elementStep (args : List Value) : Preserves P (elementStep invoke args) := by
  refine bind (indexWithin hinvoke _ _ _) fun value => ?_
  split
  · exact build _
  · exact build _

end Protocol

theorem nextStep (args : List Value) : Preserves P (nextStep args) := by
  unfold LuaHost.nextStep
  split
  · refine bind getHeap fun h => ?_
    refine bind (build _) fun pair => ?_
    split
    · exact build _
    · exact build _
  · exact fail _

end Operation.Preserves
end LuaHost

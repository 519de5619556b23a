import LuaHost.Proofs.Host.Preserves

/-!
# LuaHost.Proofs.Host.Calls

The calls that an operation of the protocol makes, as far as they show in what it does.

* `Operation.Calls`: the operation comes to call a function, and fails if the call does.
  `Calls.unique`: there is one such call at most.
* `Operation.SettledByCalls`: what the operation does is settled by what its calls give.
  `SettledByCalls.answer`: so it is with every request.
* `SettledByCalls.preserved`: an operation keeps a property of the heap if the calls that it makes do.
-/

namespace LuaHost

namespace Operation

variable {α β : Type}

/-- From the world `w` on, the operation comes to call the function on the arguments, in the world `u`:
with whichever error the call fails there, and whatever world it leaves, the operation does the same. -/
def Calls (x : Invoke → Operation α) (w : World) (f : FunctionId) (args : List Value) (u : World) :
    Prop :=
  ∀ (invoke : Invoke) (e : Error) (u' : World), invoke f args u = (.error e, u') →
    x invoke w = (.error e, u')

/-- Functions that agree on the calls that are made have the operation do the same. -/
def SettledByCalls (x : Invoke → Operation α) : Prop :=
  ∀ (w : World) (invoke invoke' : Invoke),
    (∀ f args u, Calls x w f args u → invoke f args u = invoke' f args u) → x invoke w = x invoke' w

/-- Functions of which all calls but the given ones fail at once. -/
noncomputable def restricted (invoke : Invoke) (made : FunctionId → List Value → World → Prop) :
    Invoke :=
  open Classical in
  fun f args u =>
    if made f args u then invoke f args u else (.error (.runtime .callDepthExceeded), u)

section Restricted

variable {invoke : Invoke} {made : FunctionId → List Value → World → Prop} {f : FunctionId}
  {args : List Value} {u : World}

theorem restricted_of_made (h : made f args u) : restricted invoke made f args u = invoke f args u :=
  if_pos h

theorem restricted_of_not_made (h : ¬ made f args u) :
    restricted invoke made f args u = (.error (.runtime .callDepthExceeded), u) :=
  if_neg h

end Restricted

/-! ## Calls -/

section Calls

variable {x : Invoke → Operation α} {w u : World} {f : FunctionId} {args : List Value}

theorem Calls.bind (hx : Calls x w f args u) (g : α → Operation β) :
    Calls (fun invoke => x invoke >>= g) w f args u :=
  fun invoke e u' hfails => bind_of_error (hx invoke e u' hfails)

theorem Calls.after {y : Operation β} {x : β → Invoke → Operation α} {b : β} {w' : World}
    (hx : Calls (x b) w' f args u) (hy : y w = (.ok b, w')) :
    Calls (fun invoke => y >>= fun b => x b invoke) w f args u :=
  fun invoke e u' hfails => (bind_of_ok hy).trans (hx invoke e u' hfails)

/-- An operation that does the same whatever functions do calls none of them. -/
theorem not_calls_of_eq {outcome : Except Error α × World} (h : ∀ invoke, x invoke w = outcome) :
    ¬ Calls x w f args u := by
  intro hcalls
  have hfails (e : Error) : outcome = (.error e, u) :=
    (h fun _ _ => fail e).symm.trans (hcalls (fun _ _ => fail e) e u rfl)
  have hboth := (hfails .lengthNotInteger).symm.trans (hfails .protectedMetatable)
  injection hboth with herrors
  cases herrors

/-- Two calls that both fail do so with one error, which is that of the operation. -/
theorem Calls.error_eq {g : FunctionId} {args' : List Value} {v u' v' : World} {e e' : Error}
    (hf : Calls x w f args u) (hg : Calls x w g args' v) (invoke : Invoke)
    (hfails : invoke f args u = (.error e, u')) (hfails' : invoke g args' v = (.error e', v')) :
    e = e' := by
  have hboth := (hf invoke e u' hfails).symm.trans (hg invoke e' v' hfails')
  injection hboth with herrors
  exact Except.error.inj herrors

/-- Functions that fail with one error in the first of two calls and with another everywhere else tell
the two apart. -/
theorem Calls.unique {g : FunctionId} {args' : List Value} {v : World} (hf : Calls x w f args u)
    (hg : Calls x w g args' v) : g = f ∧ args' = args ∧ v = u := by
  refine Classical.byContradiction fun hother => ?_
  have herrors := hf.error_eq hg
    (restricted (fun _ _ => fail .protectedMetatable) fun g args' v => g = f ∧ args' = args ∧ v = u)
    (restricted_of_made ⟨rfl, rfl, rfl⟩) (restricted_of_not_made hother)
  cases herrors

end Calls

/-! ## Operations that are settled by their calls -/

namespace SettledByCalls

variable {x : Invoke → Operation α}

theorem const (y : Operation α) : SettledByCalls (fun _ => y) := fun _ _ _ _ => rfl

theorem invoke (f : FunctionId) (args : List Value) : SettledByCalls (fun invoke => invoke f args) :=
  fun w _ _ hagree => hagree f args w fun _ _ _ hfails => hfails

/-- What comes after makes no calls. -/
theorem bind (hx : SettledByCalls x) (g : α → Operation β) :
    SettledByCalls (fun invoke => x invoke >>= g) := by
  intro w invoke invoke' hagree
  have hsame : x invoke w = x invoke' w :=
    hx w invoke invoke' fun f args u hcalls => hagree f args u (hcalls.bind g)
  show (x invoke >>= g) w = (x invoke' >>= g) w
  cases hrun : x invoke' w with
  | mk outcome w' =>
    rw [hrun] at hsame
    cases outcome with
    | ok a => rw [bind_of_ok hsame, bind_of_ok hrun]
    | error e => rw [bind_of_error hsame, bind_of_error hrun]

/-- What comes before makes no calls. -/
theorem after (y : Operation β) {x : β → Invoke → Operation α} (hx : ∀ b, SettledByCalls (x b)) :
    SettledByCalls (fun invoke => y >>= fun b => x b invoke) := by
  intro w invoke invoke' hagree
  show (y >>= fun b => x b invoke) w = (y >>= fun b => x b invoke') w
  cases hy : y w with
  | mk outcome w' =>
    cases outcome with
    | ok b =>
      rw [bind_of_ok hy, bind_of_ok hy]
      exact hx b w' invoke invoke' fun f args u hcalls => hagree f args u (hcalls.after hy)
    | error e => rw [bind_of_error hy, bind_of_error hy]

/-! ## The protocol -/

theorem indexWithin (key : Value) (limit : Nat) (v : Value) :
    SettledByCalls (LuaHost.indexWithin · key limit v) := by
  induction limit generalizing v with
  | zero => exact const _
  | succ limit ih =>
    refine after getHeap fun h => ?_
    split
    · exact const _
    · exact const _
    · exact after (emit _) fun _ => bind (invoke _ _) _
    · exact after (emit _) fun _ => ih _

theorem newIndexWithin (key value : Value) (limit : Nat) (v : Value) :
    SettledByCalls (LuaHost.newIndexWithin · key value limit v) := by
  induction limit generalizing v with
  | zero => exact const _
  | succ limit ih =>
    refine after getHeap fun h => ?_
    split
    · exact const _
    · exact const _
    · exact after (emit _) fun _ => bind (invoke _ _) _
    · exact after (emit _) fun _ => ih _

theorem call (v : Value) (args : List Value) : SettledByCalls (LuaHost.call · v args) := by
  unfold LuaHost.call
  split
  · exact invoke _ _
  · refine after getHeap fun h => ?_
    split
    · exact after (emit _) fun _ => invoke _ _
    · exact const _

theorem length (v : Value) : SettledByCalls (LuaHost.length · v) := by
  unfold LuaHost.length
  split
  · exact const _
  · refine after getHeap fun h => ?_
    split
    · exact const _
    · exact after (emit _) fun _ => bind (call _ _) _

theorem lengthInteger (v : Value) : SettledByCalls (LuaHost.lengthInteger · v) :=
  bind (length v) _

theorem valuesEqual (a b : Value) : SettledByCalls (LuaHost.valuesEqual · a b) := by
  refine after getHeap fun h => ?_
  split
  · exact const _
  · split
    · exact const _
    · split
      · exact const _
      · exact after (emit _) fun _ => bind (call _ _) _

theorem pairs (v : Value) : SettledByCalls (LuaHost.pairs · v) := by
  refine after getHeap fun h => ?_
  split
  · exact const _
  · exact bind (call _ _) _

theorem tableConcat (t : TableId) (separator : String) (first last : Option Int64) :
    SettledByCalls (LuaHost.tableConcat · t separator first last) := by
  cases last with
  | some last => exact const _
  | none => exact bind (lengthInteger _) _

theorem elementStep (args : List Value) : SettledByCalls (LuaHost.elementStep · args) :=
  bind (indexWithin _ _ _) _

theorem answer (request : Request) : SettledByCalls (LuaHost.answer · request) := by
  cases request with
  | index v key => exact bind (indexWithin key _ v) _
  | newIndex v key value => exact bind (newIndexWithin key value _ v) _
  | length v => exact bind (length v) _
  | call f args => exact bind (call f args) _
  | equals a b => exact bind (valuesEqual a b) _
  | pairs v => exact bind (pairs v) _
  | tableInsert t position value => exact bind (bind (lengthInteger _) _) _
  | tableRemove t position => exact bind (bind (lengthInteger _) _) _
  | tableConcat t separator first last => exact bind (tableConcat t separator first last) _
  | _ => exact const _

end SettledByCalls

/-! ## Properties of the heap -/

section Preserved

variable {x : Invoke → Operation α} {P : Heap → Prop} {w : World}
  (hkeep : ∀ invoke : Invoke, (∀ f args, Preserves P (invoke f args)) → P (x invoke w).2.heap)
include hkeep

/-- The calls that are not made may as well fail. -/
theorem SettledByCalls.preserved (hx : SettledByCalls x) {invoke : Invoke}
    (hinvoke : ∀ f args u, Calls x w f args u → P u.heap → P (invoke f args u).2.heap) :
    P (x invoke w).2.heap := by
  have hsame : x invoke w = x (restricted invoke (Calls x w)) w :=
    hx w _ _ fun f args u hcalls => (restricted_of_made hcalls).symm
  rw [hsame]
  refine hkeep _ fun f args u hu => ?_
  by_cases hcalls : Calls x w f args u
  · rw [restricted_of_made hcalls]
    exact hinvoke f args u hcalls hu
  · rw [restricted_of_not_made hcalls]
    exact hu

/-- A call that fails at once leaves the world in which it was made. -/
theorem Calls.preserved {u : World} {f : FunctionId} {args : List Value}
    (hcalls : Calls x w f args u) : P u.heap := by
  have hleft := hkeep (fun _ _ => fail .protectedMetatable) fun _ _ => .fail _
  rwa [hcalls (fun _ _ => fail .protectedMetatable) .protectedMetatable u rfl] at hleft

end Preserved
end Operation
end LuaHost

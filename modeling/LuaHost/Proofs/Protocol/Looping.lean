import LuaHost.Host.Invoke
import LuaHost.Proofs.Heap.Cells

/-!
# LuaHost.Proofs.Protocol.Looping

Loops over a step function, with and without a body that runs between the steps.

* `forLoopWith`: the loop with a body. `forLoop_eq_forLoopWith`: without one it is the loop.
* `Course`: what the steps give, one after the other, in all worlds that a loop may find itself in.
* `forLoopWith_of_course`: the run of a loop, by induction on the course. The invariant is what the
  body keeps of the heap.
-/

namespace LuaHost

open Operation

/-! ## Loops with a body -/

/-- What the outcome of a step means: the loop ends, or goes on with a key and a value. -/
def stepOutcome : Except Error Returns → Except LoopEnd (Value × Value)
  | .error e => .error (.failed e)
  | .ok results =>
    match results.get 0 with
    | .nil => .error .finished
    | key => .ok (key, results.get 1)

/-- A key and a value that a step has given, and the heap at that moment. -/
structure Visit where
  heap : Heap
  key : Value
  value : Value

def Visit.pair (visit : Visit) : Value × Value := (visit.key, visit.value)

/-- The loop whose body is run on every key and value before the next step. -/
def forLoopWith (invoke : Invoke) (step state : Value) (body : Value → Value → Operation Unit) :
    (bound : Nat) → (control : Value) → Operation (List Visit × LoopEnd)
  | 0, _ => pure ([], .cut)
  | bound + 1, control => do
    let outcome ← attempt (call invoke step [state, control])
    match stepOutcome outcome with
    | .error ending => pure ([], ending)
    | .ok (key, value) => do
      let heap ← getHeap
      body key value
      let (visits, ending) ← forLoopWith invoke step state body bound key
      pure (⟨heap, key, value⟩ :: visits, ending)

/-- A loop over what a head gives: the step function, the state and the first control value. -/
def looping {α : Type} (head : Operation Returns)
    (loop : (step state control : Value) → Operation α) : Operation α := do
  let results ← head
  loop (results.get 0) (results.get 1) (results.get 2)

theorem looping_of_ok {α : Type} {head : Operation Returns} {w w' : World} {results : Returns}
    (h : head w = (.ok results, w')) (loop : (step state control : Value) → Operation α) :
    looping head loop w = loop (results.get 0) (results.get 1) (results.get 2) w' :=
  bind_of_ok h

theorem attempt_bind {α β : Type} (x : Operation α) (f : Except Error α → Operation β) (w : World) :
    (attempt x >>= f) w = f (x w).1 (x w).2 :=
  rfl

theorem bind_apply {α β : Type} (x : Operation α) (f : α → Operation β) (w : World) :
    (x >>= f) w = match x w with
      | (.ok a, w) => f a w
      | (.error e, w) => (.error e, w) :=
  rfl

section Loop

variable {invoke : Invoke} {step state control : Value} {body : Value → Value → Operation Unit}
  {bound : Nat} {w w' : World} {key value : Value} {ending : LoopEnd}

theorem forLoopWith_end
    (h : stepOutcome (call invoke step [state, control] w).1 = .error ending) :
    (forLoopWith invoke step state body (bound + 1) control w).1 = .ok ([], ending) := by
  rw [forLoopWith, attempt_bind, h]
  rfl

theorem forLoopWith_visit
    (h : stepOutcome (call invoke step [state, control] w).1 = .ok (key, value))
    (hbody : body key value (call invoke step [state, control] w).2 = (.ok (), w')) :
    forLoopWith invoke step state body (bound + 1) control w =
      (forLoopWith invoke step state body bound key >>= fun (visits, ending) =>
        pure (⟨(call invoke step [state, control] w).2.heap, key, value⟩ :: visits, ending)) w' := by
  rw [forLoopWith, attempt_bind, h]
  exact bind_of_ok hbody

theorem forLoop_succ : forLoop invoke step state (bound + 1) control = (do
    let outcome ← attempt (call invoke step [state, control])
    match stepOutcome outcome with
    | .error ending => pure ([], ending)
    | .ok (key, value) => do
      let (visited, ending) ← forLoop invoke step state bound key
      pure ((key, value) :: visited, ending)) := by
  rw [forLoop]
  congr 1
  funext outcome
  cases outcome with
  | error e => rfl
  | ok results =>
    simp only [stepOutcome]
    cases results.get 0 with
    | _ => rfl

/-- The loop is the one whose body does nothing. -/
theorem forLoop_eq_forLoopWith :
    forLoop invoke step state bound control w =
      (forLoopWith invoke step state (fun _ _ => pure ()) bound control >>= fun (visits, ending) =>
        pure (visits.map Visit.pair, ending)) w := by
  induction bound generalizing control w with
  | zero => rfl
  | succ bound ih =>
    rw [forLoop_succ, attempt_bind, bind_apply]
    cases hstep : stepOutcome (call invoke step [state, control] w).1 with
    | error ending =>
      rw [forLoopWith, attempt_bind, hstep]
      rfl
    | ok visit =>
      have hloop : forLoopWith invoke step state (fun _ _ => pure ()) (bound + 1) control w = _ :=
        forLoopWith_visit hstep rfl
      rw [hloop, bind_apply]
      show (forLoop invoke step state bound visit.1 >>= _) _ = _
      rw [bind_apply, ih, bind_apply]
      rcases forLoopWith invoke step state (fun _ _ => pure ()) bound visit.1
        (call invoke step [state, control] w).2 with ⟨_ | _, _⟩
      · rfl
      · rfl

end Loop

/-! ## Courses -/

/-- What a loop goes through from a control value on: the keys that the steps give, and then the end. It
is so in every world whose heap satisfies `P`. The values are read in the heap of the moment, and the
steps leave the heap as it is. -/
inductive Course (P : Heap → Prop) (read : Heap → Value → Value) (step : Value → Operation Returns)
    (ending : LoopEnd) : (control : Value) → (keys : List Value) → Prop where
  | ends {control : Value} :
      (∀ w : World, P w.heap → stepOutcome (step control w).1 = .error ending) →
      Course P read step ending control []
  | visits {control key : Value} {rest : List Value} :
      (∀ w : World, P w.heap → stepOutcome (step control w).1 = .ok (key, read w.heap key) ∧
        (step control w).2.heap = w.heap) →
      Course P read step ending key rest → Course P read step ending control (key :: rest)

section Course

variable {P : Heap → Prop} {read : Heap → Value → Value} {invoke : Invoke} {step state : Value}
  {ending : LoopEnd} {control : Value} {keys : List Value} {w : World}

theorem Course.mono {Q : Heap → Prop} (hQ : ∀ h, Q h → P h) {step : Value → Operation Returns}
    (h : Course P read step ending control keys) : Course Q read step ending control keys := by
  induction h with
  | ends hstep => exact .ends fun w hw => hstep w (hQ _ hw)
  | visits hstep _ ih => exact .visits (fun w hw => hstep w (hQ _ hw)) ih

/-- What a body may do: it must not fail, and must keep `P`. -/
def Keeps (P : Heap → Prop) (body : Value → Value → Operation Unit) : Prop :=
  ∀ key value (w : World), P w.heap → ∃ w', body key value w = (.ok (), w') ∧ P w'.heap

/-- A loop that is not cut off visits the keys of its course, with the values of the moment. -/
theorem forLoopWith_of_course {body : Value → Value → Operation Unit} (hbody : Keeps P body)
    (hcourse : Course P read (fun control => call invoke step [state, control]) ending control keys)
    (bound : Nat) (hw : P w.heap) :
    ∃ visits, (forLoopWith invoke step state body bound control w).1 =
        .ok (visits, if keys.length < bound then ending else .cut) ∧
      visits.map Visit.key = keys.take bound ∧
      ∀ visit ∈ visits, P visit.heap ∧ visit.value = read visit.heap visit.key := by
  induction bound generalizing control keys w with
  | zero => exact ⟨[], rfl, rfl, nofun⟩
  | succ bound ih =>
    cases hcourse with
    | ends hstep => exact ⟨[], forLoopWith_end (hstep w hw), rfl, nofun⟩
    | @visits _ key rest hstep hrest =>
      obtain ⟨hvisit, hheap⟩ := hstep w hw
      have hhere : P (call invoke step [state, control] w).2.heap := by
        rw [hheap]
        exact hw
      obtain ⟨w', hrun, hw'⟩ := hbody key (read w.heap key) _ hhere
      obtain ⟨visits, hvisits, hkeys, hvalues⟩ := ih hrest hw'
      refine ⟨⟨w.heap, key, read w.heap key⟩ :: visits, ?_, congrArg _ hkeys, ?_⟩
      · rw [forLoopWith_visit hvisit hrun, bind_of_ok (Prod.ext hvisits rfl), hheap]
        simp only [List.length_cons, Nat.add_lt_add_iff_right]
        rfl
      · exact List.forall_mem_cons.2 ⟨⟨hw, rfl⟩, hvalues⟩

theorem keeps_pure : Keeps P (fun _ _ => pure ()) := fun _ _ w hw => ⟨w, rfl, hw⟩

/-- Without a body, and where the values do not depend on what else `P` leaves open, the loop gives the
keys with their values. -/
theorem forLoop_of_course
    (hcourse : Course P read (fun control => call invoke step [state, control]) ending control keys)
    (bound : Nat) (hw : P w.heap) (value : Value → Value)
    (hread : ∀ h key, P h → read h key = value key) :
    (forLoop invoke step state bound control w).1 =
      .ok ((keys.take bound).map fun key => (key, value key),
        if keys.length < bound then ending else .cut) := by
  obtain ⟨visits, hvisits, hkeys, hvalues⟩ := forLoopWith_of_course keeps_pure hcourse bound hw
  have hpairs : visits.map Visit.pair = visits.map ((fun key => (key, value key)) ∘ Visit.key) := by
    refine List.map_congr_left fun visit hvisit => ?_
    obtain ⟨hP, hvalue⟩ := hvalues visit hvisit
    rw [Visit.pair, hvalue, hread _ _ hP]
    rfl
  rw [forLoop_eq_forLoopWith, bind_of_ok (Prod.ext hvisits rfl), ← hkeys, List.map_map, ← hpairs]
  rfl

end Course

/-! ## Built-in steps -/

section Steps

variable {depth : Nat} {f : FunctionId} {w : World}

theorem call_next (h : w.heap.body f = .next) (args : List Value) :
    call (invokeAt (depth + 1)) (.function f) args w = nextStep args w := by
  rw [call, invokeAt, getHeap_bind, h]

theorem call_ipairs (h : w.heap.body f = .ipairs) (args : List Value) :
    call (invokeAt (depth + 1)) (.function f) args w = elementStep (invokeAt depth) args w := by
  rw [call, invokeAt, getHeap_bind, h]

end Steps

end LuaHost

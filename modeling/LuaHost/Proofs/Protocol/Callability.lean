import LuaHost.Proofs.Host.Calls
import LuaHost.Protocol.Iteration

/-!
# LuaHost.Proofs.Protocol.Callability

What can be called, and the operations that call what a metatable holds.

* `Operation.Dispatches`: an operation that reports events and then calls one function, once.
* `Heap.CallTarget`: the function that a call comes to, and the arguments that it gets.
* `Heap.isCallable_iff`: a value has a call target exactly when it is found callable.
* `GoesByCallability`: an operation that does with its operands what calling a value with them does.
* `callability_decides`: calling, measuring, comparing and the head of a traversal are such operations.
-/

namespace LuaHost

open Operation

/-! ## Reports -/

namespace World

/-- The world after further events are reported. -/
def reporting (w : World) (events : Array Event) : World := { w with events := w.events ++ events }

theorem reporting_empty (w : World) : w.reporting #[] = w := by
  rw [reporting, Array.append_empty]

theorem reporting_reporting (w : World) (events events' : Array Event) :
    (w.reporting events).reporting events' = w.reporting (events ++ events') := by
  simp only [reporting, Array.append_assoc]

end World

namespace Operation

variable {α β : Type}

theorem emit_bind_reporting (event : Event) (f : Unit → Operation β) (w : World) :
    (emit event >>= f) w = f () (w.reporting #[event]) := by
  rw [emit_bind, World.reporting, Array.push_eq_append]

/-! ## One call -/

/-- All that the operation does from the world on is to report events and then to call the function on
the arguments. Whatever functions do, it ends as this call ends and leaves the world that the call
leaves, with `finish` made of what the call gives. -/
def Dispatches (x : Invoke → Operation α) (w : World) (f : FunctionId) (args : List Value)
    (finish : Returns → α) : Prop :=
  ∃ events, ∀ invoke : Invoke, x invoke w =
    match invoke f args (w.reporting events) with
    | (outcome, w') => (outcome.map finish, w')

section Dispatches

variable {x : Invoke → Operation α} {w : World} {f : FunctionId} {args : List Value}
  {finish : Returns → α}

/-- Reports before the call and a use of what it gives leave it the only one. -/
theorem Dispatches.finishing {y : Invoke → Operation β} {events : Array Event} {use : α → β}
    (h : Dispatches x (w.reporting events) f args finish)
    (hy : ∀ invoke, y invoke w = (x invoke >>= fun a => pure (use a)) (w.reporting events)) :
    Dispatches y w f args (use ∘ finish) := by
  obtain ⟨later, hrun⟩ := h
  refine ⟨events ++ later, fun invoke => ?_⟩
  rw [hy]
  have hrun' := hrun invoke
  rw [World.reporting_reporting] at hrun'
  cases hcall : invoke f args (w.reporting (events ++ later)) with
  | mk outcome w' =>
    rw [hcall] at hrun'
    cases outcome with
    | ok r => exact bind_of_ok hrun'
    | error e => exact bind_of_error hrun'

end Dispatches
end Operation

/-! ## Callable values -/

theorem Value.exists_function_of_kind {v : Value} (h : v.kind = .function) : ∃ f, v = .function f := by
  cases v with
  | function f => exact ⟨f, rfl⟩
  | _ => cases h

namespace Metavalue

theorem resolve_eq_callable_iff {v : Value} {f : FunctionId} :
    resolve v = .callable f ↔ v = .function f := by
  cases v with
  | function g => exact ⟨fun h => by cases h; rfl, fun h => by cases h; rfl⟩
  | _ => exact ⟨nofun, nofun⟩

end Metavalue

namespace Heap

/-- The function that calling a value comes to, and the arguments that it gets: functions themselves,
and for other values a function in their metatable, with the value before the arguments. -/
inductive CallTarget (h : Heap) : Value → List Value → FunctionId → List Value → Prop where
  | function (f : FunctionId) (args : List Value) : CallTarget h (.function f) args f args
  | handler {v : Value} {f : FunctionId} (args : List Value) (hv : v.kind ≠ .function)
      (hf : h.metafield v Metafield.call.name = .function f) : CallTarget h v args f (v :: args)

theorem isCallable_of_not_function (h : Heap) {v : Value} (hv : v.kind ≠ .function) :
    h.isCallable v = true ↔ ∃ f, h.metafield v Metafield.call.name = .function f := by
  unfold isCallable
  split
  · exact absurd rfl hv
  · constructor
    · intro hcallable
      split at hcallable
      · rename_i f hf
        exact ⟨f, Metavalue.resolve_eq_callable_iff.1 hf⟩
      · cases hcallable
    · rintro ⟨f, hf⟩
      rw [show h.metavalue v .call = .callable f from Metavalue.resolve_eq_callable_iff.2 hf]

theorem isCallable_iff (h : Heap) (v : Value) (args : List Value) :
    h.isCallable v = true ↔ ∃ f args', h.CallTarget v args f args' := by
  by_cases hv : v.kind = .function
  · obtain ⟨f, rfl⟩ := Value.exists_function_of_kind hv
    exact ⟨fun _ => ⟨f, args, .function f args⟩, fun _ => rfl⟩
  · rw [h.isCallable_of_not_function hv]
    constructor
    · rintro ⟨f, hf⟩
      exact ⟨f, v :: args, .handler args hv hf⟩
    · rintro ⟨f, args', htarget⟩
      cases htarget with
      | function => exact absurd rfl hv
      | handler _ _ hf => exact ⟨f, hf⟩

end Heap

/-! ## Calling -/

section Call

variable {w : World} {v : Value} {args : List Value}

theorem dispatches_call {f : FunctionId} {args' : List Value}
    (h : w.heap.CallTarget v args f args') : Dispatches (call · v args) w f args' id := by
  cases h with
  | function =>
    refine ⟨#[], fun invoke => ?_⟩
    rw [World.reporting_empty]
    show invoke f args w = _
    rw [Except.map_id]
    rfl
  | handler _ hv hf =>
    have hmeta : w.heap.metavalue v .call = .callable f := Metavalue.resolve_eq_callable_iff.2 hf
    refine ⟨#[.callingOn .call v.kind], fun invoke => ?_⟩
    have hrun : call invoke v args w =
        invoke f (v :: args) (w.reporting #[.callingOn .call v.kind]) := by
      rw [call, getHeap_bind, hmeta]
      · exact emit_bind_reporting _ _ w
      · rintro g rfl
        exact hv rfl
    show call invoke v args w = _
    rw [hrun, Except.map_id]
    rfl

theorem call_of_not_callable (h : w.heap.isCallable v = false) (invoke : Invoke) :
    call invoke v args w = (.error (.notCallable v.kind), w) := by
  have hv : v.kind ≠ .function := by
    intro hkind
    obtain ⟨f, rfl⟩ := Value.exists_function_of_kind hkind
    cases h
  have hmeta (f : FunctionId) : w.heap.metavalue v .call ≠ .callable f := fun hf => by
    rw [(w.heap.isCallable_of_not_function hv).2 ⟨f, Metavalue.resolve_eq_callable_iff.1 hf⟩] at h
    cases h
  rw [call, getHeap_bind]
  · cases hfound : w.heap.metavalue v .call with
    | callable f => exact absurd hfound (hmeta f)
    | _ => rfl
  · rintro f rfl
    exact hv rfl

end Call

/-! ## Handlers -/

/-- With its operands, the operation does what calling a value with them does: it makes that call and
no other, and ends as the call ends, with `finish` made of what the call gives; or the value is not
callable, and the operation fails with its kind after reports at most. -/
structure GoesByCallability {α : Type} (x : Invoke → Operation α) (w : World) (m : Value)
    (operands : List Value) (finish : Returns → α) : Prop where
  callable : w.heap.isCallable m = true →
    ∃ f args, w.heap.CallTarget m operands f args ∧ Dispatches x w f args finish
  notCallable : w.heap.isCallable m = false →
    ∃ events, ∀ invoke, x invoke w = (.error (.notCallable m.kind), w.reporting events)

section Handlers

variable {α : Type} {w : World} {v a b m : Value}

theorem GoesByCallability.of_call (events : Array Event) {x : Invoke → Operation α}
    {operands : List Value} {finish : Returns → α}
    (h : ∀ invoke, x invoke w =
      (call invoke m operands >>= fun r => pure (finish r)) (w.reporting events)) :
    GoesByCallability x w m operands finish where
  callable hcallable := by
    obtain ⟨f, args, htarget⟩ := (w.heap.isCallable_iff m operands).1 hcallable
    exact ⟨f, args, htarget, (dispatches_call (w := w.reporting events) htarget).finishing h⟩
  notCallable hnot := by
    refine ⟨events, fun invoke => (h invoke).trans ?_⟩
    exact bind_of_error (call_of_not_callable (w := w.reporting events) hnot invoke)

theorem goesByCallability_length (hv : v.kind ≠ .string) (hm : m ≠ .nil)
    (hfield : w.heap.metafield v Metafield.len.name = m) :
    GoesByCallability (length · v) w m [v] Returns.first := by
  have hmeta : w.heap.metavalue v .len = Metavalue.resolve m := congrArg _ hfield
  refine .of_call #[.callingOn .len v.kind] fun invoke => ?_
  show length invoke v w = _
  rw [length, getHeap_bind, hmeta]
  · cases m with
    | nil => exact absurd rfl hm
    | _ => exact emit_bind_reporting _ _ w
  · rintro s rfl
    exact hv rfl

theorem goesByCallability_pairs (hm : m ≠ .nil)
    (hfield : w.heap.metafield v Metafield.pairs.name = m) :
    GoesByCallability (pairs · v) w m [v] (·.take 3) := by
  have hmeta : w.heap.metavalue v .pairs = Metavalue.resolve m := congrArg _ hfield
  refine .of_call #[] fun invoke => ?_
  show pairs invoke v w = _
  unfold pairs
  rw [getHeap_bind, hmeta, World.reporting_empty]
  cases m with
  | nil => exact absurd rfl hm
  | _ => rfl

theorem haveEqualityHandlers_iff : haveEqualityHandlers a b = true ↔
    a.kind = .table ∧ b.kind = .table ∨ a.kind = .userdata ∧ b.kind = .userdata := by
  cases a with
  | table t => cases b <;> simp [haveEqualityHandlers, Value.kind]
  | userdata u => cases b <;> simp [haveEqualityHandlers, Value.kind]
  | _ => simp [haveEqualityHandlers, Value.kind]

theorem Heap.equalityHandler_of_field {h : Heap} (hm : m ≠ .nil)
    (hfield : h.metafield a Metafield.eq.name = m ∨
      h.metafield a Metafield.eq.name = .nil ∧ h.metafield b Metafield.eq.name = m) :
    h.equalityHandler a b = Metavalue.resolve m := by
  rw [equalityHandler, metavalue, metavalue]
  rcases hfield with ha | ⟨ha, hb⟩
  · rw [ha]
    cases m with
    | nil => exact absurd rfl hm
    | _ => rfl
  · rw [ha, hb]
    rfl

theorem goesByCallability_valuesEqual (hraw : a.rawEq b = false)
    (hkinds : haveEqualityHandlers a b = true) (hm : m ≠ .nil)
    (hmeta : w.heap.equalityHandler a b = Metavalue.resolve m) :
    GoesByCallability (valuesEqual · a b) w m [a, b] (·.first.isTruthy) := by
  refine .of_call #[.callingEq] fun invoke => ?_
  show valuesEqual invoke a b w = _
  rw [valuesEqual, getHeap_bind, if_neg (by rw [hraw]; nofun), if_neg (by rw [hkinds]; nofun), hmeta]
  cases m with
  | nil => exact absurd rfl hm
  | _ => exact emit_bind_reporting _ _ w

/-- No handler is asked about values that are equal in the raw sense, or are not of the kinds that have
handlers, nor where neither metatable holds one. -/
theorem valuesEqual_of_unasked (h : a.rawEq b = true ∨ haveEqualityHandlers a b = false ∨
      w.heap.metafield a Metafield.eq.name = .nil ∧ w.heap.metafield b Metafield.eq.name = .nil)
    (invoke : Invoke) : valuesEqual invoke a b w = (.ok (a.rawEq b), w) := by
  rw [valuesEqual, getHeap_bind]
  cases hraw : a.rawEq b with
  | true => rfl
  | false =>
    cases hkinds : haveEqualityHandlers a b with
    | false => rfl
    | true =>
      rw [hraw, hkinds] at h
      obtain ⟨ha, hb⟩ : w.heap.metafield a Metafield.eq.name = .nil ∧
          w.heap.metafield b Metafield.eq.name = .nil := by
        rcases h with h | h | h
        · cases h
        · cases h
        · exact h
      have habsent : w.heap.equalityHandler a b = .absent := by
        rw [Heap.equalityHandler, Heap.metavalue, Heap.metavalue, ha, hb]
        rfl
      rw [habsent]
      rfl

end Handlers

/-- **Callability is one notion.** In every world: a call of what is found callable comes to one call of
a function, with the arguments if the value is that function, and with the value before them if not, and
has its outcome. A call of anything else fails with its kind and leaves the world as it was; a value
whose `__call` is no function is such, and be it a callable table. Measuring anything but a string whose
metatable has `__len`, the head of a traversal where it has `__pairs`, and comparing two tables or two
userdata that are not equal in the raw sense where that of the first, or else that of the second, has
`__eq`, go by the callability of what is found there: the first result, the first three, and whether the
first is truthy, are made of what its call gives. A comparison in any other case is the raw one. -/
theorem callability_decides (w : World) :
    (∀ v args, w.heap.isCallable v = true →
      ∃ f args', w.heap.CallTarget v args f args' ∧ Dispatches (call · v args) w f args' id) ∧
    (∀ v args, w.heap.isCallable v = false →
      ∀ invoke, call invoke v args w = (.error (.notCallable v.kind), w)) ∧
    (∀ v, v.kind ≠ .function → (w.heap.metafield v Metafield.call.name).kind ≠ .function →
      w.heap.isCallable v = false) ∧
    (∀ v m, v.kind ≠ .string → m ≠ .nil → w.heap.metafield v Metafield.len.name = m →
      GoesByCallability (length · v) w m [v] Returns.first) ∧
    (∀ v m, m ≠ .nil → w.heap.metafield v Metafield.pairs.name = m →
      GoesByCallability (pairs · v) w m [v] (·.take 3)) ∧
    (∀ a b m, a.rawEq b = false →
      a.kind = .table ∧ b.kind = .table ∨ a.kind = .userdata ∧ b.kind = .userdata → m ≠ .nil →
      w.heap.metafield a Metafield.eq.name = m ∨
        w.heap.metafield a Metafield.eq.name = .nil ∧ w.heap.metafield b Metafield.eq.name = m →
      GoesByCallability (valuesEqual · a b) w m [a, b] (·.first.isTruthy)) ∧
    ∀ a b, a.rawEq b = true ∨
        ¬ (a.kind = .table ∧ b.kind = .table ∨ a.kind = .userdata ∧ b.kind = .userdata) ∨
        w.heap.metafield a Metafield.eq.name = .nil ∧ w.heap.metafield b Metafield.eq.name = .nil →
      ∀ invoke, valuesEqual invoke a b w = (.ok (a.rawEq b), w) := by
  refine ⟨fun v args hcallable => ?_, fun v args hnot => call_of_not_callable hnot,
    fun v hv hfield => ?_, fun v m hv hm hfield => goesByCallability_length hv hm hfield,
    fun v m hm hfield => goesByCallability_pairs hm hfield, fun a b m hraw hkinds hm hfield => ?_,
    fun a b hunasked => ?_⟩
  · obtain ⟨f, args', htarget⟩ := (w.heap.isCallable_iff v args).1 hcallable
    exact ⟨f, args', htarget, dispatches_call htarget⟩
  · rw [← Bool.not_eq_true, w.heap.isCallable_of_not_function hv]
    rintro ⟨f, hf⟩
    rw [hf] at hfield
    exact hfield rfl
  · exact goesByCallability_valuesEqual hraw (haveEqualityHandlers_iff.2 hkinds) hm
      (Heap.equalityHandler_of_field hm hfield)
  · rw [← haveEqualityHandlers_iff, Bool.not_eq_true] at hunasked
    exact valuesEqual_of_unasked hunasked

/-- Table 0 is callable. Table 2 has it for `__call` and `__len`, and for `__pairs` what is not
callable. -/
def layeredCallWorld : World where
  heap := {
    tables := ⟨#[
      { metatable := some ⟨1⟩ },
      { entries := [(.string "__call", .function ⟨0⟩)] },
      { metatable := some ⟨3⟩ },
      { entries := [(.string "__call", .table ⟨0⟩), (.string "__len", .table ⟨0⟩),
          (.string "__pairs", .boolean true), (.string "__eq", .function ⟨0⟩)] },
      {}]⟩
    functions := ⟨#[.host fun _ => .finish [.integer 3]]⟩ }

theorem callability_decides_layered :
    let w := layeredCallWorld
    (∃ f args, w.heap.CallTarget (.table ⟨0⟩) [.nil] f args ∧
      Dispatches (call · (.table ⟨0⟩) [.nil]) w f args id) ∧
    w.heap.isCallable (.table ⟨2⟩) = false ∧
    (∀ invoke, call invoke (.table ⟨2⟩) [.nil] w = (.error (.notCallable .table), w)) ∧
    GoesByCallability (length · (.table ⟨2⟩)) w (.table ⟨0⟩) [.table ⟨2⟩] Returns.first ∧
    GoesByCallability (pairs · (.table ⟨2⟩)) w (.boolean true) [.table ⟨2⟩] (·.take 3) ∧
    GoesByCallability (valuesEqual · (.table ⟨4⟩) (.table ⟨2⟩)) w (.function ⟨0⟩)
      [.table ⟨4⟩, .table ⟨2⟩] (·.first.isTruthy) ∧
    ∀ invoke, valuesEqual invoke (.table ⟨4⟩) (.table ⟨0⟩) w = (.ok false, w) := by
  obtain ⟨hcall, hrefused, hnot, hlength, hpairs, hequal, hraw⟩ :=
    callability_decides layeredCallWorld
  have htable : layeredCallWorld.heap.isCallable (.table ⟨2⟩) = false :=
    hnot _ (by decide) (by decide)
  exact ⟨hcall _ _ rfl, htable, hrefused _ _ htable, hlength _ _ (by decide) nofun rfl,
    hpairs _ _ nofun rfl, hequal _ _ _ (by decide) (.inl ⟨rfl, rfl⟩) nofun (.inr ⟨rfl, rfl⟩),
    hraw _ _ (.inr (.inr ⟨rfl, rfl⟩))⟩

end LuaHost

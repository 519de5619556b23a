import LuaHost.Proofs.Host.Calls

/-!
# LuaHost.Proofs.Host.Asked

The requests that are asked in a run, those included that functions ask while they are called.

* `Asked`: a request is asked in some world in the course of an activity, at any depth of nested calls.
* `AllAsked`: all such requests are allowed, which is shown activity by activity.
* `AllAsked.answer`, `AllAsked.invokeAt`: requests and calls keep a property of the heap that the allowed
  requests keep.
* `AllAsked.holds`, `AllAsked.answered`: it holds whenever a request is asked, and after it is answered.
-/

namespace LuaHost

open Operation

inductive Activity where
  | call (f : FunctionId) (args : List Value)
  | program (program : Program)
  | request (request : Request)
  /-- One after the other, whichever of them fail. -/
  | requests (requests : List Request)

/-- The request is asked, in the world `u` and with calls nested at most `inner` deep from there on, in
the course of an activity that starts in the world given last, with calls nested at most `depth` deep. -/
inductive Asked (request : Request) (u : World) (inner : Nat) :
    (depth : Nat) → Activity → World → Prop where
  | here : Asked request u inner inner (.request request) u
  | called {depth : Nat} {r : Request} {w w' : World} {f : FunctionId} {args : List Value} :
      Calls (answer · r) w f args w' → Asked request u inner depth (.call f args) w' →
      Asked request u inner depth (.request r) w
  | body {depth : Nat} {w : World} {f : FunctionId} {args : List Value} {p : List Value → Program} :
      w.heap.body f = .host p →
      Asked request u inner depth (.program (p args)) { w with calls := w.calls.push ⟨f, args⟩ } →
      Asked request u inner (depth + 1) (.call f args) w
  /-- The step through elements asks for nothing itself, but reading an element may call a function. -/
  | element {depth : Nat} {w w' : World} {f g : FunctionId} {args args' : List Value} :
      w.heap.body f = .ipairs → Calls (elementStep · args) w g args' w' →
      Asked request u inner depth (.call g args') w' → Asked request u inner (depth + 1) (.call f args) w
  | first {depth : Nat} {r : Request} {next : Except Error (List Value) → Program} {w : World} :
      Asked request u inner depth (.request r) w → Asked request u inner depth (.program (.perform r next)) w
  | next {depth : Nat} {r : Request} {next : Except Error (List Value) → Program} {w : World} :
      Asked request u inner depth (.program (next (answer (invokeAt depth) r w).1))
        (answer (invokeAt depth) r w).2 →
      Asked request u inner depth (.program (.perform r next)) w
  | head {depth : Nat} {r : Request} {rest : List Request} {w : World} :
      Asked request u inner depth (.request r) w → Asked request u inner depth (.requests (r :: rest)) w
  | tail {depth : Nat} {r : Request} {rest : List Request} {w : World} :
      Asked request u inner depth (.requests rest) (answer (invokeAt depth) r w).2 →
      Asked request u inner depth (.requests (r :: rest)) w

/-- Every request that is asked in the course of the activity is allowed in the heap that it finds. -/
def AllAsked (allowed : Request → Heap → Prop) (depth : Nat) (activity : Activity) (w : World) :
    Prop :=
  ∀ request u inner, Asked request u inner depth activity w → allowed request u.heap

/-- What is asked in the course of a request that is asked is asked in the course of the whole. -/
theorem Asked.trans {request asked : Request} {u u' : World} {inner inner' depth : Nat}
    {activity : Activity} {w : World} (h : Asked request u inner depth activity w)
    (h' : Asked asked u' inner' inner (.request request) u) :
    Asked asked u' inner' depth activity w := by
  induction h with
  | here => exact h'
  | called hcalls _ ih => exact .called hcalls ih
  | body hbody _ ih => exact .body hbody ih
  | element hbody hcalls _ ih => exact .element hbody hcalls ih
  | first _ ih => exact .first ih
  | next _ ih => exact .next ih
  | head _ ih => exact .head ih
  | tail _ ih => exact .tail ih

/-! ## Activities in which all is allowed -/

namespace AllAsked

variable {allowed : Request → Heap → Prop} {depth : Nat} {w : World}

theorem request_of_not_calls {r : Request} (hr : allowed r w.heap)
    (hcalls : ∀ f args u, ¬ Calls (answer · r) w f args u) :
    AllAsked allowed depth (.request r) w := by
  intro request u inner hasked
  cases hasked with
  | here => exact hr
  | called hcall _ => exact absurd hcall (hcalls _ _ _)

theorem request_of_calls {r : Request} {f : FunctionId} {args : List Value} {u : World}
    (hr : allowed r w.heap) (hcalls : Calls (answer · r) w f args u)
    (hcall : AllAsked allowed depth (.call f args) u) : AllAsked allowed depth (.request r) w := by
  intro request u' inner hasked
  cases hasked with
  | here => exact hr
  | called hcalls' hrest =>
    obtain ⟨rfl, rfl, rfl⟩ := hcalls.unique hcalls'
    exact hcall request u' inner hrest

theorem call_host {f : FunctionId} {args : List Value} {p : List Value → Program}
    (hbody : w.heap.body f = .host p)
    (hprogram : AllAsked allowed depth (.program (p args))
      { w with calls := w.calls.push ⟨f, args⟩ }) :
    AllAsked allowed (depth + 1) (.call f args) w := by
  intro request u inner hasked
  cases hasked with
  | body hbody' hrest =>
    cases hbody.symm.trans hbody'
    exact hprogram request u inner hrest
  | element hbody' _ _ => cases hbody.symm.trans hbody'

theorem program_finish (values : List Value) :
    AllAsked allowed depth (.program (.finish values)) w := by
  intro request u inner hasked
  cases hasked

theorem program_perform {r : Request} {next : Except Error (List Value) → Program}
    (hfirst : AllAsked allowed depth (.request r) w)
    (hnext : AllAsked allowed depth (.program (next (answer (invokeAt depth) r w).1))
      (answer (invokeAt depth) r w).2) :
    AllAsked allowed depth (.program (.perform r next)) w := by
  intro request u inner hasked
  cases hasked with
  | first hrest => exact hfirst request u inner hrest
  | next hrest => exact hnext request u inner hrest

theorem requests_nil : AllAsked allowed depth (.requests []) w := by
  intro request u inner hasked
  cases hasked

theorem requests_cons {r : Request} {rest : List Request}
    (hhead : AllAsked allowed depth (.request r) w)
    (htail : AllAsked allowed depth (.requests rest) (answer (invokeAt depth) r w).2) :
    AllAsked allowed depth (.requests (r :: rest)) w := by
  intro request u inner hasked
  cases hasked with
  | head hrest => exact hhead request u inner hrest
  | tail hrest => exact htail request u inner hrest

end AllAsked

/-! ## What allowed requests keep -/

/-- Requests that are allowed keep the property, if the functions that they call do. -/
def KeptBy (P : Heap → Prop) (allowed : Request → Heap → Prop) : Prop :=
  ∀ (invoke : Invoke) (request : Request) (w : World),
    (∀ f args, Preserves P (invoke f args)) → P w.heap → allowed request w.heap →
    P (answer invoke request w).2.heap

namespace AllAsked

variable {P : Heap → Prop} {allowed : Request → Heap → Prop} (hkept : KeptBy P allowed)

section Nested

variable {depth : Nat} (hcall : ∀ f args u, P u.heap → AllAsked allowed depth (.call f args) u →
  P (invokeAt depth f args u).2.heap)
include hkept hcall

theorem answer_of_call {request : Request} {w : World} (hw : P w.heap)
    (hall : AllAsked allowed depth (.request request) w) :
    P (answer (invokeAt depth) request w).2.heap := by
  refine (SettledByCalls.answer request).preserved ?_ ?_
  · exact fun invoke hinvoke => hkept invoke request w hinvoke hw (hall request w depth .here)
  · intro f args u hcalls hu
    exact hcall f args u hu fun r u' inner hasked => hall r u' inner (.called hcalls hasked)

theorem runProgram_of_call {program : Program} {w : World} (hw : P w.heap)
    (hall : AllAsked allowed depth (.program program) w) :
    P (runProgram (invokeAt depth) program w).2.heap := by
  induction program generalizing w with
  | finish values => exact hw
  | fail e => exact hw
  | perform request next ih =>
    have hnext := answer_of_call hkept hcall hw fun r u inner hasked => hall r u inner (.first hasked)
    exact ih _ hnext fun r u inner hasked => hall r u inner (.next hasked)

end Nested

include hkept

/-- The induction is on the depth of nested calls. -/
theorem invokeAt {depth : Nat} {f : FunctionId} {args : List Value} {w : World} (hw : P w.heap)
    (hall : AllAsked allowed depth (.call f args) w) :
    P (LuaHost.invokeAt depth f args w).2.heap := by
  induction depth generalizing f args w with
  | zero => exact hw
  | succ depth ih =>
    have hcall (f : FunctionId) (args : List Value) (u : World) (hu : P u.heap)
        (hall : AllAsked allowed depth (.call f args) u) :
        P (LuaHost.invokeAt depth f args u).2.heap := ih hu hall
    rw [LuaHost.invokeAt, getHeap_bind]
    cases hbody : w.heap.body f with
    | next => exact Preserves.nextStep args w hw
    | ipairs =>
      refine (SettledByCalls.elementStep args).preserved ?_ ?_
      · exact fun invoke hinvoke => Preserves.elementStep hinvoke args w hw
      · intro g args' u hcalls hu
        exact hcall g args' u hu fun r u' inner hasked => hall r u' inner (.element hbody hcalls hasked)
    | host program =>
      exact runProgram_of_call hkept hcall (w := { w with calls := w.calls.push ⟨f, args⟩ }) hw
        fun r u inner hasked => hall r u inner (.body hbody hasked)

theorem answer {depth : Nat} {request : Request} {w : World} (hw : P w.heap)
    (hall : AllAsked allowed depth (.request request) w) :
    P (LuaHost.answer (LuaHost.invokeAt depth) request w).2.heap :=
  answer_of_call hkept (fun _ _ _ hu hall => invokeAt hkept hu hall) hw hall

theorem holds {depth : Nat} {activity : Activity} {w : World} (hw : P w.heap)
    (hall : AllAsked allowed depth activity w) {request : Request} {u : World} {inner : Nat}
    (hasked : Asked request u inner depth activity w) : P u.heap := by
  induction hasked with
  | here => exact hw
  | called hcalls _ ih =>
    refine ih (hcalls.preserved fun invoke hinvoke => ?_) fun r u inner hasked => hall r u inner (.called hcalls hasked)
    exact hkept invoke _ _ hinvoke hw (hall _ _ _ .here)
  | body hbody _ ih => exact ih hw fun r u inner hasked => hall r u inner (.body hbody hasked)
  | element hbody hcalls _ ih =>
    refine ih (hcalls.preserved fun invoke hinvoke => ?_)
      fun r u inner hasked => hall r u inner (.element hbody hcalls hasked)
    exact Preserves.elementStep hinvoke _ _ hw
  | first _ ih => exact ih hw fun r u inner hasked => hall r u inner (.first hasked)
  | next _ ih =>
    have hnext := answer hkept hw fun r u inner hasked => hall r u inner (.first hasked)
    exact ih hnext fun r u inner hasked => hall r u inner (.next hasked)
  | head _ ih => exact ih hw fun r u inner hasked => hall r u inner (.head hasked)
  | tail _ ih =>
    have hnext := answer hkept hw fun r u inner hasked => hall r u inner (.head hasked)
    exact ih hnext fun r u inner hasked => hall r u inner (.tail hasked)

theorem answered {depth : Nat} {activity : Activity} {w : World} (hw : P w.heap)
    (hall : AllAsked allowed depth activity w) {request : Request} {u : World} {inner : Nat}
    (hasked : Asked request u inner depth activity w) :
    P (LuaHost.answer (LuaHost.invokeAt inner) request u).2.heap :=
  answer hkept (holds hkept hw hall hasked) fun r u' inner' hinner =>
    hall r u' inner' (hasked.trans hinner)

end AllAsked
end LuaHost

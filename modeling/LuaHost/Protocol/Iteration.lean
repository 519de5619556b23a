import LuaHost.Protocol.Dispatch
import LuaHost.Returns.Typed

/-!
# LuaHost.Protocol.Iteration

Loops over the entries of a table and over the elements of an indexable value.

- `nextPair`: one step of a table traversal, as a typed pair.
- `pairs`, `ipairs`: the step function, the state and the first control value of a loop.
- `forLoop`: the loop itself.
-/

namespace LuaHost

open Operation

/-! ## Steps -/

def pairLayout : Layout := .fixed [.any, .any] (by decide)

/-- The entry after the one at the key; both slots are nil at the end. -/
def nextPair (table : Table) (key : Option Value) : Build (Typed pairLayout) :=
  match table.next? key with
  | some (k, v) => Typed.ofList pairLayout [k, v]
  | none => Typed.empty

/-- The step of a table traversal: the next key and value, or a single nil. -/
def nextStep (args : List Value) : Operation Returns := do
  match Value.ofOption args[0]? with
  | .table t => do
    let h ← getHeap
    let pair ← build (nextPair (h.table t) args[1]?)
    if pair.length = 0 then build (Returns.ofList [.nil]) else build pair.toReturns
  | v => fail (.tableExpected .next v.kind)

/-- The step through elements: the next integer and the value there, or a single nil. -/
def elementStep (invoke : Invoke) (args : List Value) : Operation Returns := do
  let i := ((args[1]?.bind Value.asInteger?).getD 0) + 1
  let value ← index invoke (Value.ofOption args[0]?) (.integer i)
  match value with
  | .nil => build (Returns.ofList [.nil])
  | value => build (Returns.ofList [.integer i, value])

/-! ## Loop heads -/

def newFunction (body : Body) : Operation Value := do
  let f ← changeHeap (·.newFunction body)
  pure (.function f)

/-- What the metatable's function gives, less all but three values, or else a traversal of the
table. -/
def pairs (invoke : Invoke) (v : Value) : Operation Returns := do
  let h ← getHeap
  match h.metavalue v .pairs with
  | .absent =>
    match v with
    | .table _ => do
      let step ← newFunction .next
      build (Returns.ofList [step, v, .nil])
    | v => fail (.tableExpected .pairs v.kind)
  | handler => do
    let results ← call invoke handler.toValue [v]
    pure (results.take 3)

def ipairs (v : Value) : Operation Returns := do
  let step ← newFunction .ipairs
  build (Returns.ofList [step, v, .integer 0])

/-! ## Loops -/

inductive LoopEnd where
  | finished
  | failed (e : Error)
  | cut
deriving DecidableEq, Repr

/-- Calls the step function with the state and the control value, which is the first result of the step
before, until it gives nil. The first two results of every step are kept. -/
def forLoop (invoke : Invoke) (step state : Value) :
    (bound : Nat) → (control : Value) → Operation (List (Value × Value) × LoopEnd)
  | 0, _ => pure ([], .cut)
  | bound + 1, control => do
    let outcome ← attempt (call invoke step [state, control])
    match outcome with
    | .error e => pure ([], .failed e)
    | .ok results =>
      match results.get 0 with
      | .nil => pure ([], .finished)
      | key => do
        let (visited, ending) ← forLoop invoke step state bound key
        pure ((key, results.get 1) :: visited, ending)

end LuaHost

import LuaHost.Json.Bridge
import LuaHost.Protocol.Iteration
import LuaHost.Protocol.Sequence

/-!
# LuaHost.Host.Invoke

Calling functions: running the programs of host functions and the built-in steps.

- `answer`: what a request of a host function is answered.
- `runProgram`: a program run to its end.
- `invokeAt`: functions, with a bound on how deep calls are nested.
-/

namespace LuaHost

open Operation

def answer (invoke : Invoke) : Request → Operation (List Value)
  | .newTable values => do
    let t ← changeHeap (·.newTable (Table.ofList values))
    pure [.table t]
  | .fromJson json => do
    let v ← changeHeap json.toValue.run
    pure [v]
  | .editTable t edit => do
    let h ← getHeap
    let (results, table) ← ofExcept (edit.apply (h.table t))
    setHeap (h.setTable t table)
    pure results
  | .rawGet t key => do
    let h ← getHeap
    pure [(h.table t).get key]
  | .rawLength t => do
    let h ← getHeap
    pure [.integer (h.table t).rawLength]
  | .assignMetatable t metatable => do
    modifyHeap (·.setTableMetatable t metatable)
    pure []
  | .readPayload u => do
    let h ← getHeap
    match h.payload u with
    | .integer i => pure [.integer i]
    | .text s => pure [.string s]
  | .writePayload u payload => do
    modifyHeap (·.setPayload u payload)
    pure []
  | .getMetatable v => do
    let h ← getHeap
    pure [h.getMetatable v]
  | .setMetatable v metatable => do
    setMetatable v metatable
    pure []
  | .index v key => do
    let value ← index invoke v key
    pure [value]
  | .newIndex v key value => do
    newIndex invoke v key value
    pure []
  | .length v => do
    let n ← length invoke v
    pure [n]
  | .call f args => do
    let results ← call invoke f args
    pure results.toList
  | .equals a b => do
    let equal ← valuesEqual invoke a b
    pure [.boolean equal]
  | .pairs v => do
    let results ← pairs invoke v
    pure results.toList
  | .ipairs v => do
    let results ← ipairs v
    pure results.toList
  | .tableInsert t position value => do
    tableInsert invoke t position value
    pure []
  | .tableRemove t position => do
    let removed ← tableRemove invoke t position
    pure [removed]
  | .tableConcat t separator first last => do
    let text ← tableConcat invoke t separator first last
    pure [.string text]

def runProgram (invoke : Invoke) : Program → Operation Returns
  | .finish values => build (Returns.ofList values)
  | .fail e => fail e
  | .perform request next => do
    let outcome ← attempt (answer invoke request)
    runProgram invoke (next outcome)

/-- Functions, whose calls may be nested to the given depth. Calls of host functions are recorded as
they start. -/
def invokeAt : (depth : Nat) → Invoke
  | 0, _, _ => fail (.runtime .callDepthExceeded)
  | depth + 1, f, args => do
    let h ← getHeap
    match h.body f with
    | .next => nextStep args
    | .ipairs => elementStep (invokeAt depth) args
    | .host program => do
      recordCall ⟨f, args⟩
      runProgram (invokeAt depth) (program args)

def callDepthLimit : Nat := 1000

def invoke : Invoke := invokeAt callDepthLimit

end LuaHost

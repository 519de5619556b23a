import LuaHost.Protocol.Delegation

/-!
# LuaHost.Protocol.Dispatch

Operations that a metatable's function answers: calling, measuring and comparing.

- `call`: functions themselves, other values through the function in their metatable.
- `length`, `lengthInteger`: a string's bytes, what the handler says, or a table's sequence.
- `valuesEqual`: raw equality, or what the handler of either operand says.
-/

namespace LuaHost

open Operation

def call (invoke : Invoke) (v : Value) (args : List Value) : Operation Returns :=
  match v with
  | .function f => invoke f args
  | v => do
    let h ← getHeap
    match h.metavalue v .call with
    | .callable f => do
      emit (.callingOn .call v.kind)
      invoke f (v :: args)
    | _ => fail (.notCallable v.kind)

def length (invoke : Invoke) (v : Value) : Operation Value :=
  match v with
  | .string s => pure (.integer (Int64.ofNat s.utf8ByteSize))
  | v => do
    let h ← getHeap
    match h.metavalue v .len with
    | .absent =>
      match v with
      | .table t => pure (.integer (h.table t).rawLength)
      | v => fail (.lengthNotSupported v.kind)
    | handler => do
      emit (.callingOn .len v.kind)
      let results ← call invoke handler.toValue [v]
      pure results.first

/-- The length where an integer is required; an exact float is one. -/
def lengthInteger (invoke : Invoke) (v : Value) : Operation Int64 := do
  let result ← length invoke v
  match result.asInteger? with
  | some n => pure n
  | none => fail .lengthNotInteger

/-- The handler of the first operand, or else of the second. -/
def Heap.equalityHandler (h : Heap) (a b : Value) : Metavalue :=
  match h.metavalue a .eq with
  | .absent => h.metavalue b .eq
  | handler => handler

/-- Handlers are asked only about two tables or two userdata. -/
def haveEqualityHandlers : Value → Value → Bool
  | .table _, .table _ => true
  | .userdata _, .userdata _ => true
  | _, _ => false

def valuesEqual (invoke : Invoke) (a b : Value) : Operation Bool := do
  let h ← getHeap
  if a.rawEq b then pure true
  else if !haveEqualityHandlers a b then pure false
  else
    match h.equalityHandler a b with
    | .absent => pure false
    | handler => do
      emit .callingEq
      let results ← call invoke handler.toValue [a, b]
      pure results.first.isTruthy

end LuaHost

import LuaHost.Protocol.Metavalue

/-!
# LuaHost.Protocol.Delegation

Reading and assigning at a key, where a metatable can delegate what the table itself has no entry for.

A metatable field delegates to a function, which is called, or to another value, on which the operation
is repeated. Such links are followed up to a limit, so that chains that close on themselves end.

- `index`, `newIndex`: reading and assigning with the default limit.
- `indexWithin`, `newIndexWithin`: the same with a limit of the caller's.
- `tableGet`, `tableSet`: reading and assigning where the value is known to be a table.
-/

namespace LuaHost

open Operation

abbrev Invoke := FunctionId → List Value → Operation Returns

/-- The number of values that are looked at, one link of a chain after the other, before giving up. -/
def defaultHopLimit : Nat := 2000

inductive Hop where
  /-- The operation is carried out on this raw table. -/
  | settled (t : TableId)
  | refused
  | handler (f : FunctionId)
  | link (next : Value)
deriving DecidableEq, Repr

namespace Heap

/-- What the field says where the value itself does not settle the operation. -/
def delegate (h : Heap) (field : Metafield) (v : Value) : Hop :=
  match h.metavalue v field with
  | .callable f => .handler f
  | .indexable next => .link next
  | .absent =>
    match v with
    | .table t => .settled t
    | _ => .refused

/-- Reading settles at a table that has a value at the key. -/
def indexHop (h : Heap) (key v : Value) : Hop :=
  match v with
  | .table t => if ((h.table t).get key).isNil then h.delegate .index v else .settled t
  | v => h.delegate .index v

/-- Assigning settles at a table that has the key: existing keys are always assigned in place. -/
def newIndexHop (h : Heap) (key v : Value) : Hop :=
  match v with
  | .table t => if (h.table t).contains key then .settled t else h.delegate .newIndex v
  | v => h.delegate .newIndex v

end Heap

/-- Raw assignment to a table; a refused key changes nothing. -/
def rawSet (t : TableId) (key value : Value) : Operation Unit := do
  let h ← getHeap
  let table ← ofExcept ((h.table t).set key value)
  setHeap (h.setTable t table)

/-- `v[key]`, following at most `limit` values of the chain. -/
def indexWithin (invoke : Invoke) (key : Value) : (limit : Nat) → (v : Value) → Operation Value
  | 0, _ => fail (.delegationLoop .index)
  | limit + 1, v => do
    let h ← getHeap
    match h.indexHop key v with
    | .settled t => pure ((h.table t).get key)
    | .refused => fail (.indexNotSupported v.kind)
    | .handler f => do
      emit (.callingFor .index key)
      let results ← invoke f [v, key]
      pure results.first
    | .link next => do
      emit (.following .index next.kind)
      indexWithin invoke key limit next

/-- `v[key] = value`, following at most `limit` values of the chain. -/
def newIndexWithin (invoke : Invoke) (key value : Value) :
    (limit : Nat) → (v : Value) → Operation Unit
  | 0, _ => fail (.delegationLoop .newIndex)
  | limit + 1, v => do
    let h ← getHeap
    match h.newIndexHop key v with
    | .settled t => rawSet t key value
    | .refused => fail (.indexNotSupported v.kind)
    | .handler f => do
      emit (.callingFor .newIndex key)
      let _ ← invoke f [v, key, value]
      pure ()
    | .link next => do
      emit (.following .newIndex next.kind)
      newIndexWithin invoke key value limit next

def index (invoke : Invoke) (v key : Value) : Operation Value :=
  indexWithin invoke key defaultHopLimit v

def newIndex (invoke : Invoke) (v key value : Value) : Operation Unit :=
  newIndexWithin invoke key value defaultHopLimit v

def tableGet (invoke : Invoke) (t : TableId) (key : Value) : Operation Value :=
  index invoke (.table t) key

def tableSet (invoke : Invoke) (t : TableId) (key value : Value) : Operation Unit :=
  newIndex invoke (.table t) key value

end LuaHost

import LuaHost.World

/-!
# LuaHost.Protocol.Metavalue

What a metatable says about a value.

- `Heap.metavalue`: the field of a value's metatable, sorted into function, other value, or absent.
- `getMetatable`, `setMetatable`: the metatable as programs see it, which a field can protect.
-/

namespace LuaHost

inductive Metavalue where
  | callable (f : FunctionId)
  /-- Any other value that is not nil; the operation is repeated on it. -/
  | indexable (v : Value)
  | absent
deriving DecidableEq, Repr

namespace Metavalue

def resolve : Value → Metavalue
  | .nil => .absent
  | .function f => .callable f
  | v => .indexable v

def isAbsent : Metavalue → Bool
  | .absent => true
  | _ => false

def toValue : Metavalue → Value
  | .callable f => .function f
  | .indexable v => v
  | .absent => .nil

end Metavalue

namespace Heap

/-- The raw field of the value's metatable; nil where there is no metatable. -/
def metafield (h : Heap) (v : Value) (name : String) : Value :=
  match h.metatable? v with
  | some m => (h.table m).getString name
  | none => .nil

def metavalue (h : Heap) (v : Value) (field : Metafield) : Metavalue :=
  Metavalue.resolve (h.metafield v field.name)

/-- The protecting field where there is one, else the metatable itself. -/
def getMetatable (h : Heap) (v : Value) : Value :=
  match h.metatable? v with
  | none => .nil
  | some m =>
    match (h.table m).getString Metafield.metatable.name with
    | .nil => .table m
    | field => field

def isCallable (h : Heap) (v : Value) : Bool :=
  match v with
  | .function _ => true
  | v =>
    match h.metavalue v .call with
    | .callable _ => true
    | _ => false

end Heap

open Operation

/-- Replaces the metatable of a table or userdata, unless the present one is protected. -/
def setMetatable (v : Value) (metatable : Option TableId) : Operation Unit := do
  let h ← getHeap
  if !(h.metafield v Metafield.metatable.name).isNil then
    emit (.keepingProtected v.kind)
    fail .protectedMetatable
  else
    match v with
    | .table t => setHeap (h.setTableMetatable t metatable)
    | .userdata u => setHeap (h.setUserdataMetatable u metatable)
    | v => fail (.tableExpected .setMetatable v.kind)

end LuaHost

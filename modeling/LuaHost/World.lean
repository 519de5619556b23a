import LuaHost.Heap.Basic
import LuaHost.Returns.Basic

/-!
# LuaHost.World

Everything that operations read and change, and the operations as functions on it.

- `Event`: what operations report as they run.
- `World`: the heap, the number of the next buffer, and the records of events and host calls.
- `Operation`: a function on worlds, which ends with a value or an error and leaves a world either way.
- `Operation.bind_of_ok`, `Operation.bind_of_error`: how one operation goes on after another.
-/

namespace LuaHost

/-! ## Events -/

inductive Level where
  | trace
  | debug
deriving DecidableEq, Repr

inductive Event where
  | callingFor (field : Metafield) (key : Value)
  | callingOn (field : Metafield) (kind : Kind)
  | callingEq
  /-- The operation is repeated on what the field holds. -/
  | following (field : Metafield) (kind : Kind)
  | keepingProtected (kind : Kind)
  | misfit (misfit : Misfit)
deriving DecidableEq, Repr

namespace Event

def level : Event → Level
  | .callingFor _ _ => .trace
  | .callingOn _ _ => .trace
  | .callingEq => .trace
  | .following _ _ => .trace
  | .keepingProtected _ => .debug
  | .misfit _ => .debug

def message : Event → String
  | .callingFor field key => "calling " ++ field.name ++ " for " ++ key.debugText
  | .callingOn field kind => "calling " ++ field.name ++ " on a " ++ kind.name
  | .callingEq => "calling " ++ Metafield.eq.name
  | .following field kind => "following " ++ field.name ++ " to a " ++ kind.name
  | .keepingProtected kind => "refusing to replace protected metatable of a " ++ kind.name
  | .misfit _ => "value does not fit its slot, reading as nil"

end Event

/-! ## Worlds -/

structure HostCall where
  function : FunctionId
  args : List Value
deriving DecidableEq, Repr

structure World where
  heap : Heap := {}
  nextBuffer : Nat := 0
  events : Array Event := #[]
  calls : Array HostCall := #[]
deriving Inhabited

/-! ## Operations -/

/-- A function on worlds that gives a value or fails. The world it leaves is kept either way. -/
def Operation (α : Type) : Type := World → Except Error α × World

namespace Operation

variable {α β : Type}

instance : Monad Operation where
  pure a := fun w => (.ok a, w)
  bind x f := fun w =>
    match x w with
    | (.ok a, w) => f a w
    | (.error e, w) => (.error e, w)

def fail (e : Error) : Operation α := fun w => (.error e, w)

def ofExcept : Except Error α → Operation α
  | .ok a => pure a
  | .error e => fail e

/-- The outcome of an operation as a value, so that its failure can be dealt with. -/
def attempt (x : Operation α) : Operation (Except Error α) := fun w =>
  match x w with
  | (outcome, w) => (.ok outcome, w)

def getHeap : Operation Heap := fun w => (.ok w.heap, w)

def setHeap (h : Heap) : Operation Unit := fun w => (.ok (), { w with heap := h })

def modifyHeap (f : Heap → Heap) : Operation Unit := fun w => (.ok (), { w with heap := f w.heap })

/-- A change of the heap that has a result, such as an allocation. -/
def changeHeap (f : Heap → α × Heap) : Operation α := fun w =>
  match f w.heap with
  | (a, heap) => (.ok a, { w with heap })

def emit (event : Event) : Operation Unit := fun w => (.ok (), { w with events := w.events.push event })

def recordCall (call : HostCall) : Operation Unit := fun w =>
  (.ok (), { w with calls := w.calls.push call })

/-- Builds returns with the world's buffer numbers; misfits become events. -/
def build (x : Build α) : Operation α := fun w =>
  match x { nextBuffer := w.nextBuffer } with
  | (a, ledger) =>
    (.ok a, { w with
      nextBuffer := ledger.nextBuffer
      events := w.events ++ (ledger.misfits.map Event.misfit).toArray })

/-! ## Running a sequence of operations -/

theorem getHeap_bind (f : Heap → Operation β) (w : World) : (getHeap >>= f) w = f w.heap w := rfl

theorem emit_bind (event : Event) (f : Unit → Operation β) (w : World) :
    (emit event >>= f) w = f () { w with events := w.events.push event } := rfl

theorem bind_of_ok {x : Operation α} {f : α → Operation β} {w w' : World} {a : α}
    (h : x w = (.ok a, w')) : (x >>= f) w = f a w' := by
  show (match x w with | (.ok a, w) => f a w | (.error e, w) => (.error e, w)) = _
  rw [h]

theorem bind_of_error {x : Operation α} {f : α → Operation β} {w w' : World} {e : Error}
    (h : x w = (.error e, w')) : (x >>= f) w = (.error e, w') := by
  show (match x w with | (.ok a, w) => f a w | (.error e, w) => (.error e, w)) = _
  rw [h]

end Operation
end LuaHost

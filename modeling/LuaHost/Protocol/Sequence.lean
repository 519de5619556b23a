import LuaHost.Protocol.Dispatch

/-!
# LuaHost.Protocol.Sequence

The sequence operations of tables, where a metatable can say how long the sequence is.

- `tableInsert`, `tableRemove`: shifting at a position, the end where none is given.
- `tableConcat`: the texts of a range, from 1 to the length where it is not given.
-/

namespace LuaHost

open Operation

/-- One past the length, or the greatest integer where there is none past it. -/
def endPosition (length : Int64) : Int64 :=
  if length = Int64.maxValue then length else length + 1

def tableInsert (invoke : Invoke) (t : TableId) (position : Option Int64) (value : Value) :
    Operation Unit := do
  let length ← lengthInteger invoke (.table t)
  let h ← getHeap
  let table ← ofExcept ((h.table t).insertWithin length (position.getD (endPosition length)) value)
  setHeap (h.setTable t table)

def tableRemove (invoke : Invoke) (t : TableId) (position : Option Int64) : Operation Value := do
  let length ← lengthInteger invoke (.table t)
  let h ← getHeap
  let (removed, table) ← ofExcept ((h.table t).removeWithin length position)
  setHeap (h.setTable t table)
  pure removed

def tableConcat (invoke : Invoke) (t : TableId) (separator : String) (first last : Option Int64) :
    Operation String := do
  let last ←
    match last with
    | some last => pure last
    | none => lengthInteger invoke (.table t)
  let h ← getHeap
  ofExcept ((h.table t).concatRange separator (first.getD 1) last)

end LuaHost

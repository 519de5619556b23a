import LuaHost.Table.Sequence

/-!
# LuaHost.Table.Edit

The raw changes of a table as data, so that they can be asked for and repeated.
-/

namespace LuaHost.Table

inductive Edit where
  | set (key value : Value)
  | setAt (i : Int64) (value : Value)
  | append (value : Value)
  | appendAll (values : List Value)
  | insert (position : Int64) (value : Value)
  | insertWithin (length position : Int64) (value : Value)
  | remove (position : Option Int64)
  | removeWithin (length : Int64) (position : Option Int64)
  | clearSequence
deriving DecidableEq, Repr

/-- The changed table, and the removed value where one is removed. A refused change leaves no table. -/
def Edit.apply : Edit → Table → Except Error (List Value × Table)
  | .set key value, t => (t.set key value).map ([], ·)
  | .setAt i value, t => .ok ([], t.setAt i.toInt value)
  | .append value, t => .ok ([], t.append value)
  | .appendAll values, t => .ok ([], t.appendAll values)
  | .insert position value, t => (t.insert position value).map ([], ·)
  | .insertWithin length position value, t =>
    (t.insertWithin length position value).map ([], ·)
  | .remove position, t => (t.remove position).map fun (removed, t) => ([removed], t)
  | .removeWithin length position, t =>
    (t.removeWithin length position).map fun (removed, t) => ([removed], t)
  | .clearSequence, t => .ok ([], t.clearSequence)

end LuaHost.Table

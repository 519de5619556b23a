import LuaHost.Json.Basic
import LuaHost.Table.Edit

/-!
# LuaHost.Host.Program

Host functions as data. A function turns its arguments into a program: a tree of requests, each
continued by the answer it gets, that ends with the values to return or with an error.

- `Request`: everything a host function can ask for.
- `Program`: what a host function does with the answers.
- `HostFunction`: the program for each list of arguments.
- `Body`: what a function is, host-defined or built in.
-/

namespace LuaHost

inductive Payload where
  | integer (i : Int64)
  | text (s : String)
deriving DecidableEq, Inhabited, Repr

inductive Request where
  -- raw access, past all metatables
  | newTable (values : List Value)
  | fromJson (json : Json)
  | editTable (t : TableId) (edit : Table.Edit)
  | rawGet (t : TableId) (key : Value)
  | rawLength (t : TableId)
  | assignMetatable (t : TableId) (metatable : Option TableId)
  | readPayload (u : UserdataId)
  | writePayload (u : UserdataId) (payload : Payload)
  -- operations that metatables can change
  | getMetatable (v : Value)
  | setMetatable (v : Value) (metatable : Option TableId)
  | index (v key : Value)
  | newIndex (v key value : Value)
  | length (v : Value)
  | call (f : Value) (args : List Value)
  | equals (a b : Value)
  | pairs (v : Value)
  | ipairs (v : Value)
  | tableInsert (t : TableId) (position : Option Int64) (value : Value)
  | tableRemove (t : TableId) (position : Option Int64)
  | tableConcat (t : TableId) (separator : String) (first last : Option Int64)

inductive Program where
  | finish (values : List Value)
  | fail (error : Error)
  | perform (request : Request) (next : Except Error (List Value) → Program)

/-- A host function: the program that it runs on its arguments. -/
abbrev HostFunction := List Value → Program

def HostFunction.constant (values : List Value) : HostFunction := fun _ => .finish values

inductive Body where
  | next
  /-- The step through the elements 1, 2, … of an indexable value. -/
  | ipairs
  | host (program : List Value → Program)

instance : Inhabited Body := ⟨.host fun _ => .finish []⟩

end LuaHost

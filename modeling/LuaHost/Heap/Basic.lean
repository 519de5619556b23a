import LuaHost.Heap.Store
import LuaHost.Host.Program
import LuaHost.Table.Sequence

/-!
# LuaHost.Heap.Basic

What the identities of tables, userdata and functions stand for.

- `Heap.table`, `Heap.setTable`, `Heap.newTable` and their kin for userdata and functions.
- `Heap.metatable?`, `Heap.setTableMetatable`, `Heap.setUserdataMetatable`: metatable slots.
-/

namespace LuaHost

structure Userdata where
  payload : Payload
  metatable : Option TableId := none
deriving DecidableEq, Inhabited, Repr

structure Heap where
  tables : Store Table := {}
  userdatas : Store Userdata := {}
  functions : Store Body := {}
deriving Inhabited

namespace Heap

/-! ## Cells -/

def table (h : Heap) (t : TableId) : Table := h.tables.get t.index

def setTable (h : Heap) (t : TableId) (table : Table) : Heap :=
  { h with tables := h.tables.set t.index table }

def newTable (h : Heap) (table : Table) : TableId × Heap :=
  let (i, tables) := h.tables.alloc table
  (⟨i⟩, { h with tables })

def userdata (h : Heap) (u : UserdataId) : Userdata := h.userdatas.get u.index

def setUserdata (h : Heap) (u : UserdataId) (data : Userdata) : Heap :=
  { h with userdatas := h.userdatas.set u.index data }

def newUserdata (h : Heap) (data : Userdata) : UserdataId × Heap :=
  let (i, userdatas) := h.userdatas.alloc data
  (⟨i⟩, { h with userdatas })

def body (h : Heap) (f : FunctionId) : Body := h.functions.get f.index

def newFunction (h : Heap) (body : Body) : FunctionId × Heap :=
  let (i, functions) := h.functions.alloc body
  (⟨i⟩, { h with functions })

def payload (h : Heap) (u : UserdataId) : Payload := (h.userdata u).payload

def setPayload (h : Heap) (u : UserdataId) (payload : Payload) : Heap :=
  h.setUserdata u { h.userdata u with payload }

/-! ## Metatable slots -/

/-- The metatable in the value's slot; only tables and userdata have one. -/
def metatable? (h : Heap) : Value → Option TableId
  | .table t => (h.table t).metatable
  | .userdata u => (h.userdata u).metatable
  | _ => none

def setTableMetatable (h : Heap) (t : TableId) (metatable : Option TableId) : Heap :=
  h.setTable t { h.table t with metatable }

def setUserdataMetatable (h : Heap) (u : UserdataId) (metatable : Option TableId) : Heap :=
  h.setUserdata u { h.userdata u with metatable }

end Heap
end LuaHost

import LuaHost.Error

/-!
# LuaHost.Table.Basic

Raw tables: finite maps from values to values, looked up by raw equality.

- `Table.get`, `Table.set`, `Table.contains`, `Table.count`: the map operations.
- `Table.next?`, `Table.traverse`: the traversal, in the order of the entries.

The list of entries stands for one enumeration order of the map. Overwriting a present key keeps its
place.
-/

namespace LuaHost

abbrev Entries := List (Value × Value)

namespace Entries

/-- The value at the first key that is raw-equal to the given one; nil when there is none. -/
def lookup (key : Value) : Entries → Value
  | [] => .nil
  | (k, v) :: rest => if k.rawEq key then v else lookup key rest

/-- The value goes to the place of a raw-equal key, or to the end. -/
def store (key value : Value) : Entries → Entries
  | [] => [(key, value)]
  | (k, v) :: rest =>
    if k.rawEq key then (k, value) :: rest else (k, v) :: store key value rest

def erase (key : Value) (entries : Entries) : Entries :=
  entries.filter fun entry => !entry.1.rawEq key

def contains (key : Value) (entries : Entries) : Bool :=
  entries.any fun entry => entry.1.rawEq key

def after? (key : Value) : Entries → Option (Value × Value)
  | [] => none
  | (k, _) :: rest => if k.rawEq key then rest.head? else after? key rest

end Entries

structure Table where
  entries : Entries := []
  metatable : Option TableId := none
deriving DecidableEq, Inhabited, Repr

namespace Table

/-- The form in which a key is stored: a float that is exactly an integer becomes that integer, and
nil and NaN are refused. -/
def normalizeKey : Value → Except Error Value
  | .nil => .error .nilIndex
  | .float x =>
    if x.isNaN then .error .nanIndex
    else
      match x.int64? with
      | some i => .ok (.integer i)
      | none => .ok (.float x)
  | key => .ok key

/-- Absent keys read as nil, and so do nil and NaN, which are never stored. -/
def get (t : Table) (key : Value) : Value :=
  if key.isNil then .nil else t.entries.lookup key

/-- Assignment at a key in stored form. Nil is never stored: assigning it removes the entry. -/
def put (t : Table) (key value : Value) : Table :=
  { t with
    entries := if value.isNil then t.entries.erase key else t.entries.store key value }

def set (t : Table) (key value : Value) : Except Error Table :=
  match normalizeKey key with
  | .error e => .error e
  | .ok key => .ok (t.put key value)

/-- A string is stored as it is, so assignment at one cannot fail. -/
theorem set_string (t : Table) (name : String) (value : Value) :
    t.set (.string name) value = .ok (t.put (.string name) value) := rfl

def contains (t : Table) (key : Value) : Bool :=
  !key.isNil && t.entries.contains key

def count (t : Table) : Nat := t.entries.length

def getString (t : Table) (name : String) : Value := t.get (.string name)

def getAt (t : Table) (i : Int) : Value := t.get (.integer (Int64.ofInt i))

/-- Assignment at an integer key, which cannot fail. -/
def setAt (t : Table) (i : Int) (value : Value) : Table := t.put (.integer (Int64.ofInt i)) value

def containsAt (t : Table) (i : Int) : Bool := t.contains (.integer (Int64.ofInt i))

/-- The first entry for no key or nil, else the entry after the key's; an absent key has none. -/
def next? (t : Table) : Option Value → Option (Value × Value)
  | none => t.entries.head?
  | some .nil => t.entries.head?
  | some key => t.entries.after? key

/-- The entries that follow one another from the one after `key` on, at most `bound` of them. -/
def traverse (t : Table) : (bound : Nat) → (key : Option Value) → Entries
  | 0, _ => []
  | bound + 1, key =>
    match t.next? key with
    | none => []
    | some (k, v) => (k, v) :: traverse t bound (some k)

def debugText (t : Table) : String :=
  "\x7b" ++ separated ", " (t.entries.map fun (k, v) => k.debugText ++ ": " ++ v.debugText) ++ "\x7d"

end Table
end LuaHost

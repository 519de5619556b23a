import LuaHost.Json.Parser
import LuaHost.Heap.Basic
import LuaHost.Returns.Basic

/-!
# LuaHost.Json.Bridge

Values as JSON and JSON as values.

- `Heap.toJson`: a pure sequence becomes an array, any other table an object. Functions, userdata,
  numbers that are not finite, and tables inside themselves have no JSON.
- `Json.toValue`: arrays become sequences, in which nulls leave holes, and objects become tables with
  string keys. It cannot fail: a JSON number is an integer or a finite double, and a string is always a
  key.
-/

namespace LuaHost

/-! ## Values to JSON -/

def Value.scalarJson : Value → Except Error Json
  | .nil => .ok .null
  | .boolean b => .ok (.bool b)
  | .integer i => .ok (.number (.ofInt64 i))
  | .float x =>
    match JsonNumber.ofDouble? x with
    | some n => .ok (.number n)
    | none => .error (.runtime (.nonFiniteNumber x))
  | .string s => .ok (.string s)
  | .table _ => .error (.runtime .circularReference)
  | .function _ => .error (.runtime (.noJsonForm .function))
  | .userdata _ => .error (.runtime (.noJsonForm .userdata))

/-- The name of the member that a key becomes; entries with other keys are left out. -/
def Value.memberName? : Value → Option String
  | .string s => some s
  | .integer i => some (integerText i)
  | .float x => some x.text
  | .boolean b => some (Value.boolean b).text
  | _ => none

/-- All keys of the table belong to its sequence; so it is of the empty table. -/
def Table.isSequence (t : Table) : Bool := t.length == t.count

def Table.members (t : Table) : List (String × Value) :=
  t.entries.filterMap fun (key, value) => key.memberName?.map (·, value)

namespace Heap

/-- The JSON of a value inside the tables of `path`, where at most `bound` more tables are nested. -/
def encode (h : Heap) : (bound : Nat) → (path : List TableId) → Value → Except Error Json
  | 0, _, v => v.scalarJson
  | bound + 1, path, v =>
    match v with
    | .table t =>
      if t ∈ path then .error (.runtime .circularReference)
      else if (h.table t).isSequence then do
        let elements ← (h.table t).sequence.mapM (encode h bound (t :: path))
        pure (.array elements)
      else do
        let members ← (h.table t).members.mapM fun (name, value) => do
          let json ← encode h bound (t :: path) value
          pure (name, json)
        pure (Json.objectOf members)
    | v => v.scalarJson

/-- A path without repetition has at most one table that was never allocated, at its end. -/
def toJson (h : Heap) (v : Value) : Except Error Json := h.encode (h.tables.size + 1) [] v

def returnsToJson (h : Heap) (r : Returns) : Except Error Json := do
  let elements ← r.toList.mapM h.toJson
  pure (.array elements)

end Heap

/-! ## JSON to values -/

/-- An integer where it fits in 64 bits, else the nearest double. -/
def JsonNumber.toNumber : JsonNumber → Number
  | .integer n _ => if n < Int.pow 2 63 then .integer (Int64.ofInt n) else .float (Double.ofInt n)
  | .float x _ => .float x

def Table.ofMembers (members : List (String × Value)) : Table :=
  members.foldl (fun t (name, value) => t.put (.string name) value) {}

/-- The members are assigned one after the other, and none of the assignments fails. -/
theorem Table.ofMembers_eq_ok (members : List (String × Value)) :
    members.foldlM (fun t (name, value) => Table.set t (.string name) value) {} =
      .ok (Table.ofMembers members) := by
  unfold ofMembers
  generalize ({} : Table) = t
  induction members generalizing t with
  | nil => rfl
  | cons member rest ih =>
    obtain ⟨name, value⟩ := member
    simp only [List.foldlM_cons, set_string]
    exact ih (t.put (.string name) value)

namespace Json

mutual

/-- The value of a JSON value; the tables it needs are allocated. -/
def toValue : Json → StateM Heap Value
  | .null => pure .nil
  | .bool b => pure (.boolean b)
  | .number n => pure n.toNumber.toValue
  | .string s => pure (.string s)
  | .array elements => do
    let values ← toValues elements
    let t ← modifyGet (·.newTable (Table.ofList values))
    pure (.table t)
  | .object members => do
    let values ← memberValues members
    let t ← modifyGet (·.newTable (Table.ofMembers values))
    pure (.table t)

def toValues : List Json → StateM Heap (List Value)
  | [] => pure []
  | element :: rest => do
    let value ← toValue element
    let values ← toValues rest
    pure (value :: values)

def memberValues : List (String × Json) → StateM Heap (List (String × Value))
  | [] => pure []
  | (name, json) :: rest => do
    let value ← toValue json
    let values ← memberValues rest
    pure ((name, value) :: values)

end

end Json

def readJson (text : String) : Except Error Json :=
  match Json.parse? text with
  | some json => .ok json
  | none => .error (.runtime .malformedJson)

end LuaHost

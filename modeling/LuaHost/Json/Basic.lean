import LuaHost.Number.Numeral

/-!
# LuaHost.Json.Basic

JSON values. The members of an object are listed in ascending order of their names, each name once;
`Json.insertMember` keeps a list so.
-/

namespace LuaHost

/-- A JSON number: a 64-bit integer, signed or unsigned, or a finite double. -/
inductive JsonNumber where
  | integer (value : Int) (inRange : -Int.pow 2 63 ≤ value ∧ value < Int.pow 2 64)
  | float (value : Double) (finite : value.isFinite = true)
deriving DecidableEq

namespace JsonNumber

/-- None where the integer fits neither the signed nor the unsigned 64-bit range. -/
def ofInt? (n : Int) : Option JsonNumber :=
  if inRange : -Int.pow 2 63 ≤ n ∧ n < Int.pow 2 64 then some (.integer n inRange) else none

def ofDouble? (x : Double) : Option JsonNumber :=
  if finite : x.isFinite = true then some (.float x finite) else none

def ofInt64 (i : Int64) : JsonNumber :=
  .integer i.toInt ⟨Int64.le_toInt i, Int.lt_trans (Int64.toInt_lt i) (by decide)⟩

end JsonNumber

inductive Json where
  | null
  | bool (b : Bool)
  | number (n : JsonNumber)
  | string (s : String)
  | array (elements : List Json)
  | object (members : List (String × Json))
deriving Inhabited

/-- The member goes to its place in the order of names; it replaces one of the same name. -/
def Json.insertMember (name : String) (value : Json) :
    List (String × Json) → List (String × Json)
  | [] => [(name, value)]
  | (other, old) :: rest =>
    if name < other then (name, value) :: (other, old) :: rest
    else if name = other then (name, value) :: rest
    else (other, old) :: insertMember name value rest

/-- The object of the members, of which the last of each name counts. -/
def Json.objectOf (members : List (String × Json)) : Json :=
  .object (members.foldl (fun sorted (name, value) => insertMember name value sorted) [])

end LuaHost

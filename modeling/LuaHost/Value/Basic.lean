import LuaHost.Number.Double

/-!
# LuaHost.Value.Basic

The values of the language as a host program holds them. Tables, functions and userdata are named by
identities; what they contain lives in the heap.

- `Value.rawEq`: equality without metatables, where an integer equals the float of the same value.
- `Value.fingerprint`: what distinguishes a value to a hash function.
- the `as…?` functions: taking a value out as one kind of data.
-/

namespace LuaHost

/-! ## Identities -/

structure TableId where
  index : Nat
deriving DecidableEq, Inhabited, Repr

structure FunctionId where
  index : Nat
deriving DecidableEq, Inhabited, Repr

structure UserdataId where
  index : Nat
deriving DecidableEq, Inhabited, Repr

/-! ## Kinds -/

/-- The basic types; both number subtypes are one kind. -/
inductive Kind where
  | nil
  | boolean
  | number
  | string
  | table
  | function
  | userdata
deriving DecidableEq, Repr

def Kind.name : Kind → String
  | .nil => "nil"
  | .boolean => "boolean"
  | .number => "number"
  | .string => "string"
  | .table => "table"
  | .function => "function"
  | .userdata => "userdata"

/-! ## Values -/

inductive Value where
  | nil
  | boolean (b : Bool)
  | integer (i : Int64)
  | float (x : Double)
  | string (s : String)
  | table (t : TableId)
  | function (f : FunctionId)
  | userdata (u : UserdataId)
deriving DecidableEq, Inhabited, Repr

namespace Value

def kind : Value → Kind
  | .nil => .nil
  | .boolean _ => .boolean
  | .integer _ => .number
  | .float _ => .number
  | .string _ => .string
  | .table _ => .table
  | .function _ => .function
  | .userdata _ => .userdata

def isNil : Value → Bool
  | .nil => true
  | _ => false

def isInteger : Value → Bool
  | .integer _ => true
  | _ => false

def isFloat : Value → Bool
  | .float _ => true
  | _ => false

/-- Only nil and false count as false. -/
def isTruthy : Value → Bool
  | .nil => false
  | .boolean b => b
  | _ => true

/-- Equality without metatables: references by identity, numbers by value across the subtypes. -/
def rawEq : Value → Value → Bool
  | .nil, .nil => true
  | .boolean a, .boolean b => a == b
  | .integer i, .integer j => i == j
  | .float x, .float y => x.equals y
  | .integer i, .float x => x.int64? == some i
  | .float x, .integer i => x.int64? == some i
  | .string s, .string t => s == t
  | .table t, .table u => t == u
  | .function f, .function g => f == g
  | .userdata u, .userdata v => u == v
  | _, _ => false

def listRawEq : List Value → List Value → Bool
  | [], [] => true
  | v :: vs, w :: ws => v.rawEq w && listRawEq vs ws
  | _, _ => false

end Value

/-! ## Fingerprints -/

inductive Fingerprint where
  | nil
  | boolean (b : Bool)
  | integer (i : Int64)
  | bits (b : UInt64)
  | string (s : String)
  | table (t : TableId)
  | function (f : FunctionId)
  | userdata (u : UserdataId)
deriving DecidableEq, Repr

/-- A float that is exactly an integer is fed as that integer, any other float by its bits. -/
def Value.fingerprint : Value → Fingerprint
  | .nil => .nil
  | .boolean b => .boolean b
  | .integer i => .integer i
  | .float x =>
    match x.int64? with
    | some i => .integer i
    | none => .bits x.bits
  | .string s => .string s
  | .table t => .table t
  | .function f => .function f
  | .userdata u => .userdata u

/-! ## Numbers -/

inductive Number where
  | integer (i : Int64)
  | float (x : Double)
deriving DecidableEq, Repr

namespace Number

def toValue : Number → Value
  | .integer i => .integer i
  | .float x => .float x

def toDouble : Number → Double
  | .integer i => Double.ofInt i.toInt
  | .float x => x

def int64? : Number → Option Int64
  | .integer i => some i
  | .float x => x.int64?

def equals (a b : Number) : Bool := a.toValue.rawEq b.toValue

end Number

/-! ## Taking values out -/

namespace Value

def asBoolean? : Value → Option Bool
  | .boolean b => some b
  | _ => none

def asNumber? : Value → Option Number
  | .integer i => some (.integer i)
  | .float x => some (.float x)
  | _ => none

/-- The integer that a number is exactly. -/
def asInteger? (v : Value) : Option Int64 := v.asNumber?.bind Number.int64?

def asDouble? (v : Value) : Option Double := v.asNumber?.map Number.toDouble

def asString? : Value → Option String
  | .string s => some s
  | _ => none

def asTable? : Value → Option TableId
  | .table t => some t
  | _ => none

def asFunction? : Value → Option FunctionId
  | .function f => some f
  | _ => none

def asUserdata? : Value → Option UserdataId
  | .userdata u => some u
  | _ => none

def ofOption : Option Value → Value
  | some v => v
  | none => .nil

end Value
end LuaHost

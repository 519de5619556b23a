import LuaHost.Value.Basic

/-!
# LuaHost.Returns.Category

The categories of typed result slots.

- `Category.accepts`: whether a slot can hold a value; nil fits everywhere.
- `Category.Carrier`: the data that a slot of a category holds when it is not nil, with
  `Category.ofValue?` and `Category.toValue` between it and values.
-/

namespace LuaHost

/-- The category of a typed slot; an `any` slot is untyped. -/
inductive Category where
  | any
  | boolean
  | number
  | string
  | table
  | function
  | userdata
deriving DecidableEq, Repr

namespace Category

def name : Category → String
  | .any => "LuaValue"
  | .boolean => "bool"
  | .number => "LuaNumber"
  | .string => "LuaString"
  | .table => "TableRef"
  | .function => "LuaFunction"
  | .userdata => "UserdataRef"

/-- The most specific category of a value; nil has none. -/
def of : Value → Category
  | .nil => .any
  | .boolean _ => .boolean
  | .integer _ => .number
  | .float _ => .number
  | .string _ => .string
  | .table _ => .table
  | .function _ => .function
  | .userdata _ => .userdata

def accepts (c : Category) (v : Value) : Bool :=
  c == .any || v.isNil || of v == c

/-- What a slot of a category holds when it is not nil. -/
def Carrier : Category → Type
  | .any => Value
  | .boolean => Bool
  | .number => Number
  | .string => String
  | .table => TableId
  | .function => FunctionId
  | .userdata => UserdataId

/-- None for nil and for values of another category. -/
def ofValue? : (c : Category) → Value → Option c.Carrier
  | .any, .nil => none
  | .any, v => some v
  | .boolean, v => v.asBoolean?
  | .number, v => v.asNumber?
  | .string, v => v.asString?
  | .table, v => v.asTable?
  | .function, v => v.asFunction?
  | .userdata, v => v.asUserdata?

def toValue : (c : Category) → c.Carrier → Value
  | .any, v => v
  | .boolean, b => .boolean b
  | .number, n => n.toValue
  | .string, s => .string s
  | .table, t => .table t
  | .function, f => .function f
  | .userdata, u => .userdata u

end Category
end LuaHost

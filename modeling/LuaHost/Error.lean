import LuaHost.Returns.Shape
import LuaHost.Value.Text

/-!
# LuaHost.Error

The ways an operation can fail, and the message of each.
-/

namespace LuaHost

/-! ## What errors speak of -/

inductive Metafield where
  | index
  | newIndex
  | len
  | eq
  | call
  | pairs
  /-- Protects the metatable instead of handling an operation. -/
  | metatable
deriving DecidableEq, Repr

def Metafield.name : Metafield → String
  | .index => "__index"
  | .newIndex => "__newindex"
  | .len => "__len"
  | .eq => "__eq"
  | .call => "__call"
  | .pairs => "__pairs"
  | .metatable => "__metatable"

inductive Shifting where
  | insert
  | remove
deriving DecidableEq, Repr

def Shifting.name : Shifting → String
  | .insert => "insert"
  | .remove => "remove"

/-- The functions that refuse a first argument of the wrong kind. -/
inductive TableFunction where
  | setMetatable
  | next
  | pairs
deriving DecidableEq, Repr

def TableFunction.name : TableFunction → String
  | .setMetatable => "setmetatable"
  | .next => "next"
  | .pairs => "pairs"

/-! ## Runtime errors -/

/-- Failures that a script sees as nothing but a message. -/
inductive RuntimeError where
  | notConcatenable (index : Int64)
  | circularReference
  | noJsonForm (kind : Kind)
  | nonFiniteNumber (x : Double)
  | malformedJson
  /-- Host functions called each other past the depth limit. -/
  | callDepthExceeded
  | host (message : String)
deriving DecidableEq, Repr

namespace RuntimeError

/-- The name of a number that JSON cannot hold. -/
def nonFiniteName (x : Double) : String :=
  if x.isNaN then "NaN" else if x.negative then "-inf" else "inf"

def message : RuntimeError → String
  | .notConcatenable index =>
    "invalid value (at index " ++ integerText index ++ ") in table for 'concat'"
  | .circularReference => "Circular reference detected in table"
  | .noJsonForm kind => "Cannot serialize Lua " ++ kind.name ++ " to JSON"
  | .nonFiniteNumber x => "Invalid number: " ++ nonFiniteName x
  | .malformedJson => "Failed to parse JSON"
  | .callDepthExceeded => "stack overflow"
  | .host message => message

end RuntimeError

/-! ## Errors -/

inductive Error where
  | unsupportedShape (shape : Shape)
  | positionOutOfBounds (operation : Shifting) (position : Int64)
  | lengthNotInteger
  | lengthNotSupported (kind : Kind)
  | indexNotSupported (kind : Kind)
  | notCallable (kind : Kind)
  | nilIndex
  | nanIndex
  /-- A delegation chain was followed up to the hop limit. -/
  | delegationLoop (field : Metafield)
  | protectedMetatable
  | tableExpected (function : TableFunction) (found : Kind)
  | runtime (error : RuntimeError)
deriving DecidableEq, Repr

namespace Error

def badArgument (position : Nat) (function detail : String) : String :=
  "bad argument #" ++ toString position ++ " to '" ++ function ++ "' (" ++ detail ++ ")"

def message : Error → String
  | .unsupportedShape shape =>
    "type '" ++ shape.name ++ "' is not a supported MultiReturns type"
  | .positionOutOfBounds operation _ => badArgument 2 operation.name "position out of bounds"
  | .lengthNotInteger => "object length is not an integer"
  | .lengthNotSupported kind => "attempt to get length of a " ++ kind.name ++ " value"
  | .indexNotSupported kind => "attempt to index a " ++ kind.name ++ " value"
  | .notCallable kind => "attempt to call a " ++ kind.name ++ " value"
  | .nilIndex => "index is nil"
  | .nanIndex => "index is NaN"
  | .delegationLoop field => "'" ++ field.name ++ "' chain too long; possible loop"
  | .protectedMetatable => "cannot change a protected metatable"
  | .tableExpected function found =>
    badArgument 1 function.name ("table expected, got " ++ found.name)
  | .runtime error => error.message

end Error
end LuaHost

import LuaHost.Number.Shortest
import LuaHost.Value.Basic

/-!
# LuaHost.Value.Text

The text of values.

- `Value.text`: as printed and concatenated.
- `Value.debugText`: as shown inside other texts, with strings between quotes.
-/

namespace LuaHost

/-- Integers below this bound in absolute value are written out digit by digit when held as floats. -/
def Double.positionalBound : Nat := Nat.pow 10 16

/-- The text of a float. One that is an integer below the bound shows it with one decimal, so that it
does not read as an integer; any other finite float has the fewest digits that read back, in their
places. -/
def Double.text (x : Double) : String :=
  let sign := if x.negative then ['-'] else []
  if x.isNaN then String.ofList (sign ++ ['n', 'a', 'n'])
  else if x.isInfinite then String.ofList (sign ++ ['i', 'n', 'f'])
  else
    match x.integer? with
    | some n =>
      if n.natAbs < positionalBound then
        String.ofList (sign ++ Nat.toDigits 10 n.natAbs ++ ['.', '0'])
      else String.ofList (sign ++ (x.shortest .up).positional)
    | none => String.ofList (sign ++ (x.shortest .up).positional)

def integerText (i : Int64) : String := toString i.toInt

/-- A reference is shown by its kind and a number that is its own among those of the kind. -/
def referenceText (kind : Kind) (index : Nat) : String :=
  kind.name ++ ": 0x" ++ String.ofList (Nat.toDigits 16 index)

namespace Value

def text : Value → String
  | .nil => "nil"
  | .boolean true => "true"
  | .boolean false => "false"
  | .integer i => integerText i
  | .float x => x.text
  | .string s => s
  | .table t => referenceText .table t.index
  | .function f => referenceText .function f.index
  | .userdata u => referenceText .userdata u.index

/-- Strings stand between quotes, with nothing escaped. -/
def debugText : Value → String
  | .string s => "\"" ++ s ++ "\""
  | v => v.text

end Value
end LuaHost

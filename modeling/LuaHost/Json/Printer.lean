import LuaHost.Json.Basic
import LuaHost.Number.Shortest
import LuaHost.Text.Separated

/-!
# LuaHost.Json.Printer

The text of JSON values, on one line or indented.

- `Json.compact`: no blanks at all.
- `Json.pretty`: an element or member to a line, two blanks to a level.
-/

namespace LuaHost

/-! ## Scalars -/

/-- Sixteen digits before the point and four zeros behind it are the most that are written
positionally. -/
def Numeral.jsonText (n : Numeral) : List Char :=
  if -5 < n.point ∧ n.point ≤ 16 then n.positionalWithPoint else n.scientific

/-- The fewest digits that read back, with at least one decimal unless an exponent is written. -/
def Double.jsonText (x : Double) : String :=
  String.ofList ((if x.negative then ['-'] else []) ++ (x.shortest .even).jsonText)

def JsonNumber.text : JsonNumber → String
  | .integer n _ => toString n
  | .float x _ => x.jsonText

namespace Json

def hexByte (n : Nat) : List Char := [Nat.digitChar (n / 16), Nat.digitChar (n % 16)]

/-- A character as it stands inside a string: quotes, backslashes and control characters are
escaped. -/
def escaped (c : Char) : List Char :=
  if c = '"' then ['\\', '"']
  else if c = '\\' then ['\\', '\\']
  else if c = '\x08' then ['\\', 'b']
  else if c = '\x0c' then ['\\', 'f']
  else if c = '\n' then ['\\', 'n']
  else if c = '\r' then ['\\', 'r']
  else if c = '\t' then ['\\', 't']
  else if c.toNat < 0x20 then '\\' :: 'u' :: '0' :: '0' :: hexByte c.toNat
  else [c]

def quoted (s : String) : String :=
  String.ofList ('"' :: (s.toList.flatMap escaped ++ ['"']))

/-! ## Compact text -/

mutual

def compact : Json → String
  | .null => "null"
  | .bool true => "true"
  | .bool false => "false"
  | .number n => n.text
  | .string s => quoted s
  | .array elements => "[" ++ separated "," (compactElements elements) ++ "]"
  | .object members => "\x7b" ++ separated "," (compactMembers members) ++ "\x7d"

def compactElements : List Json → List String
  | [] => []
  | element :: rest => element.compact :: compactElements rest

def compactMembers : List (String × Json) → List String
  | [] => []
  | (name, value) :: rest => (quoted name ++ ":" ++ value.compact) :: compactMembers rest

end

/-! ## Indented text -/

def lineBreak (level : Nat) : String := String.ofList ('\n' :: List.replicate (2 * level) ' ')

/-- Items on lines of their own between brackets; brackets alone around nothing. -/
def block (level : Nat) (left right : String) (items : List String) : String :=
  if items.isEmpty then left ++ right
  else
    left ++ lineBreak (level + 1) ++ separated ("," ++ lineBreak (level + 1)) items ++
      lineBreak level ++ right

mutual

def prettyAt (level : Nat) : Json → String
  | .array elements => block level "[" "]" (prettyElements (level + 1) elements)
  | .object members => block level "\x7b" "\x7d" (prettyMembers (level + 1) members)
  | .null => "null"
  | .bool true => "true"
  | .bool false => "false"
  | .number n => n.text
  | .string s => quoted s

def prettyElements (level : Nat) : List Json → List String
  | [] => []
  | element :: rest => prettyAt level element :: prettyElements level rest

def prettyMembers (level : Nat) : List (String × Json) → List String
  | [] => []
  | (name, value) :: rest =>
    (quoted name ++ ": " ++ prettyAt level value) :: prettyMembers level rest

end

def pretty (j : Json) : String := prettyAt 0 j

end Json
end LuaHost

import LuaHost.Json.Basic

/-!
# LuaHost.Json.Parser

Reading JSON text. Every reader takes characters and gives what it read with the characters after it.

- `Json.parse?`: the value that a whole text stands for.

A number with a point or an exponent is rounded once, to the nearest double. A reader that scales the
digits by powers of ten in doubles rounds more than once, and can be off in the last place where the
digits or the power are no doubles themselves; where both are, the two agree. What is proved of JSON is
proved of values, not of their texts.
-/

namespace LuaHost.Json

/-- Arrays and objects may be nested this deep. -/
def nestingLimit : Nat := 127

abbrev Reader (α : Type) := List Char → Option (α × List Char)

def isBlank (c : Char) : Bool := c == ' ' || c == '\t' || c == '\n' || c == '\r'

def skipBlanks (cs : List Char) : List Char := cs.dropWhile isBlank

/-! ## Numbers -/

def digitsValue (ds : List Char) : Nat := ds.foldl (fun n d => 10 * n + (d.toNat - 48)) 0

def readDigits : Reader (List Char) := fun cs =>
  match cs.takeWhile Char.isDigit with
  | [] => none
  | ds => some (ds, cs.dropWhile Char.isDigit)

/-- A zero alone, or digits that start with another digit. -/
def readWhole : Reader (List Char) := fun cs =>
  match readDigits cs with
  | some ('0' :: _ :: _, _) => none
  | result => result

/-- The digits after a point; none where there is no point. -/
def readDecimals : Reader (Option (List Char)) := fun cs =>
  match cs with
  | '.' :: rest => (readDigits rest).map fun (ds, rest) => (some ds, rest)
  | cs => some (none, cs)

def readSigned : Reader Int := fun cs =>
  match cs with
  | '-' :: rest => (readDigits rest).map fun (ds, rest) => (-(digitsValue ds : Int), rest)
  | '+' :: rest => (readDigits rest).map fun (ds, rest) => ((digitsValue ds : Int), rest)
  | cs => (readDigits cs).map fun (ds, rest) => ((digitsValue ds : Int), rest)

/-- The power of ten after an `e`; none where there is no `e`. -/
def readExponent : Reader (Option Int) := fun cs =>
  match cs with
  | 'e' :: rest => (readSigned rest).map fun (e, rest) => (some e, rest)
  | 'E' :: rest => (readSigned rest).map fun (e, rest) => (some e, rest)
  | cs => some (none, cs)

def decimalNumber? (negative : Bool) (digits : List Char) (exponent : Int) : Option JsonNumber :=
  (Double.ofDecimal? negative (digitsValue digits) exponent).bind JsonNumber.ofDouble?

/-- A number without point and exponent is an integer where it fits, except for negative zero. -/
def wholeNumber? (negative : Bool) (digits : List Char) : Option JsonNumber :=
  let n := digitsValue digits
  if negative && n == 0 then decimalNumber? negative digits 0
  else
    match JsonNumber.ofInt? (if negative then -(n : Int) else n) with
    | some integer => some integer
    | none => decimalNumber? negative digits 0

def readUnsigned (negative : Bool) : Reader JsonNumber := fun cs =>
  match readWhole cs with
  | none => none
  | some (whole, cs) =>
    match readDecimals cs with
    | none => none
    | some (decimals, cs) =>
      match readExponent cs with
      | none => none
      | some (exponent, cs) =>
        match decimals, exponent with
        | none, none => (wholeNumber? negative whole).map (·, cs)
        | decimals, exponent =>
          let decimals := decimals.getD []
          let power := exponent.getD 0 - decimals.length
          (decimalNumber? negative (whole ++ decimals) power).map (·, cs)

def readNumber : Reader JsonNumber := fun cs =>
  match cs with
  | '-' :: rest => readUnsigned true rest
  | cs => readUnsigned false cs

/-! ## Strings -/

def hexDigit? (c : Char) : Option Nat :=
  if '0' ≤ c ∧ c ≤ '9' then some (c.toNat - 48)
  else if 'a' ≤ c ∧ c ≤ 'f' then some (c.toNat - 87)
  else if 'A' ≤ c ∧ c ≤ 'F' then some (c.toNat - 55)
  else none

def readUnit : Reader Nat := fun cs =>
  match cs with
  | a :: b :: c :: d :: rest =>
    match hexDigit? a, hexDigit? b, hexDigit? c, hexDigit? d with
    | some a, some b, some c, some d => some (((a * 16 + b) * 16 + c) * 16 + d, rest)
    | _, _, _, _ => none
  | _ => none

/-- The character of a hexadecimal escape; one past the first plane takes two units, and neither of
them stands alone. -/
def readUnicode : Reader Char := fun cs =>
  match readUnit cs with
  | none => none
  | some (unit, cs) =>
    if 0xDC00 ≤ unit ∧ unit < 0xE000 then none
    else if 0xD800 ≤ unit ∧ unit < 0xDC00 then
      match cs with
      | '\\' :: 'u' :: cs =>
        match readUnit cs with
        | none => none
        | some (low, cs) =>
          if 0xDC00 ≤ low ∧ low < 0xE000 then
            some (Char.ofNat (0x10000 + (unit - 0xD800) * 0x400 + (low - 0xDC00)), cs)
          else none
      | _ => none
    else some (Char.ofNat unit, cs)

def readEscape : Reader Char := fun cs =>
  match cs with
  | '"' :: rest => some ('"', rest)
  | '\\' :: rest => some ('\\', rest)
  | '/' :: rest => some ('/', rest)
  | 'b' :: rest => some ('\x08', rest)
  | 'f' :: rest => some ('\x0c', rest)
  | 'n' :: rest => some ('\n', rest)
  | 'r' :: rest => some ('\r', rest)
  | 't' :: rest => some ('\t', rest)
  | 'u' :: rest => readUnicode rest
  | _ => none

/-- The characters up to the closing quote. Each step takes a character, so `bound` is their number. -/
def readChars : (bound : Nat) → Reader (List Char)
  | 0, _ => none
  | _ + 1, [] => none
  | _ + 1, '"' :: rest => some ([], rest)
  | bound + 1, '\\' :: rest =>
    match readEscape rest with
    | none => none
    | some (c, rest) => (readChars bound rest).map fun (cs, rest) => (c :: cs, rest)
  | bound + 1, c :: rest =>
    if c.toNat < 0x20 then none
    else (readChars bound rest).map fun (cs, rest) => (c :: cs, rest)

/-- A string whose opening quote has been read. -/
def readString : Reader String := fun cs =>
  (readChars cs.length cs).map fun (chars, rest) => (String.ofList chars, rest)

/-! ## Values -/

mutual

/-- A value, in which `depth` further arrays and objects may be nested. -/
def readValue : (bound depth : Nat) → Reader Json
  | 0, _, _ => none
  | bound + 1, depth, cs =>
    match skipBlanks cs with
    | 'n' :: 'u' :: 'l' :: 'l' :: rest => some (.null, rest)
    | 't' :: 'r' :: 'u' :: 'e' :: rest => some (.bool true, rest)
    | 'f' :: 'a' :: 'l' :: 's' :: 'e' :: rest => some (.bool false, rest)
    | '"' :: rest => (readString rest).map fun (s, rest) => (.string s, rest)
    | '[' :: rest =>
      match depth, skipBlanks rest with
      | 0, _ => none
      | _ + 1, ']' :: rest => some (.array [], rest)
      | depth + 1, _ =>
        (readElements bound depth rest).map fun (elements, rest) => (.array elements, rest)
    | '\x7b' :: rest =>
      match depth, skipBlanks rest with
      | 0, _ => none
      | _ + 1, '\x7d' :: rest => some (.object [], rest)
      | depth + 1, _ =>
        (readMembers bound depth rest).map fun (members, rest) => (objectOf members, rest)
    | cs => (readNumber cs).map fun (n, rest) => (.number n, rest)

def readElements : (bound depth : Nat) → Reader (List Json)
  | 0, _, _ => none
  | bound + 1, depth, cs =>
    match readValue bound depth cs with
    | none => none
    | some (element, cs) =>
      match skipBlanks cs with
      | ']' :: rest => some ([element], rest)
      | ',' :: rest =>
        (readElements bound depth rest).map fun (elements, rest) => (element :: elements, rest)
      | _ => none

def readMembers : (bound depth : Nat) → Reader (List (String × Json))
  | 0, _, _ => none
  | bound + 1, depth, cs =>
    match skipBlanks cs with
    | '"' :: cs =>
      match readString cs with
      | none => none
      | some (name, cs) =>
        match skipBlanks cs with
        | ':' :: cs =>
          match readValue bound depth cs with
          | none => none
          | some (value, cs) =>
            match skipBlanks cs with
            | '\x7d' :: rest => some ([(name, value)], rest)
            | ',' :: rest =>
              (readMembers bound depth rest).map fun (members, rest) =>
                ((name, value) :: members, rest)
            | _ => none
        | _ => none
    | _ => none

end

/-- The value of a text that holds one value and blanks. A character leads to at most two nested
readings, so the bound is never met. -/
def parse? (text : String) : Option Json :=
  let cs := text.toList
  match readValue (2 * cs.length + 2) nestingLimit cs with
  | some (value, rest) => if (skipBlanks rest).isEmpty then some value else none
  | none => none

end LuaHost.Json

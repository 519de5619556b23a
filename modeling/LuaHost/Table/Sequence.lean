import LuaHost.Table.Basic

/-!
# LuaHost.Table.Sequence

The sequence part of a table: the values at the keys 1, 2, … up to the first absent one.

- `Table.length`, `Table.sequence`, `Table.clearSequence`, `Table.ofList`
- `Table.append`, `Table.appendAll`: storing at free positions.
- `Table.insert`, `Table.remove`: shifting at a position, against a length that the caller supplies.
- `Table.concat`: the texts of a range of elements.

Loops over present keys are bounded by the number of entries, loops over positions by their number.
-/

namespace LuaHost.Table

/-! ## Length -/

/-- The number of consecutive present keys from `start` on, counted up to `bound`. -/
def runLength (t : Table) : (bound : Nat) → (start : Int) → Nat
  | 0, _ => 0
  | bound + 1, start => if t.containsAt start then runLength t bound (start + 1) + 1 else 0

def length (t : Table) : Nat := t.runLength t.count 1

/-- The values from `start` on, up to the first nil or to `bound` of them. -/
def valuesFrom (t : Table) : (bound : Nat) → (start : Int) → List Value
  | 0, _ => []
  | bound + 1, start =>
    match t.getAt start with
    | .nil => []
    | value => value :: valuesFrom t bound (start + 1)

def sequence (t : Table) : List Value := t.valuesFrom t.count 1

def clearFrom : (bound : Nat) → (start : Int) → Table → Table
  | 0, _, t => t
  | bound + 1, start, t =>
    if t.containsAt start then clearFrom bound (start + 1) (t.setAt start .nil) else t

/-- Drops the sequence part and keeps all other keys. -/
def clearSequence (t : Table) : Table := clearFrom t.count 1 t

/-! ## Appending -/

/-- Stores the values at consecutive keys; nils leave holes. -/
def setFrom : (start : Int) → List Value → Table → Table
  | _, [], t => t
  | start, value :: rest, t => setFrom (start + 1) rest (t.setAt start value)

def ofList (values : List Value) : Table := setFrom 1 values {}

def append (t : Table) (value : Value) : Table := t.setAt (t.length + 1) value

/-- Stores each value at the first free key past the one before. -/
def appendFrom : (start : Int) → List Value → Table → Table
  | _, [], t => t
  | start, value :: rest, t =>
    let t := t.setAt start value
    appendFrom (start + 1 + t.runLength t.count (start + 1)) rest t

/-- Stores the values past the sequence, stepping over occupied keys. -/
def appendAll (t : Table) (values : List Value) : Table := appendFrom (t.length + 1) values t

/-! ## Shifting -/

/-- Moves the values at `n` keys from `start` on up by one, the last one first. -/
def shiftUp (start : Int) : (n : Nat) → Table → Table
  | 0, t => t
  | n + 1, t => shiftUp start n (t.setAt (start + n + 1) (t.getAt (start + n)))

/-- Moves the values at the `n` keys after `start` down by one, the first one first. -/
def shiftDown : (start : Int) → (n : Nat) → Table → Table
  | _, 0, t => t
  | start, n + 1, t => shiftDown (start + 1) n (t.setAt start (t.getAt (start + 1)))

/-- Shifts `position, …, length` up by one and stores the value at the position, which may be one past
the length. A sequence cannot grow past the greatest integer. -/
def insertWithin (t : Table) (length position : Int64) (value : Value) : Except Error Table :=
  if length ≠ Int64.maxValue ∧ 1 ≤ position.toInt ∧ position.toInt ≤ length.toInt + 1 then
    let moved := (length.toInt + 1 - position.toInt).toNat
    .ok ((shiftUp position.toInt moved t).setAt position.toInt value)
  else
    .error (.positionOutOfBounds .insert position)

/-- Takes out the value at the position and shifts what follows it, up to the length, down by one. -/
def removeAt (t : Table) (length position : Int64) : Value × Table :=
  let moved := (length.toInt - position.toInt).toNat
  (t.getAt position.toInt, (shiftDown position.toInt moved t).setAt length.toInt .nil)

/-- Removal at a position within the length, or at the length itself; an empty sequence has nothing to
remove, which is no error. -/
def removeWithin (t : Table) (length : Int64) : Option Int64 → Except Error (Value × Table)
  | some position =>
    if 1 ≤ position.toInt ∧ position.toInt ≤ length.toInt then .ok (t.removeAt length position)
    else .error (.positionOutOfBounds .remove position)
  | none => if length.toInt ≤ 0 then .ok (.nil, t) else .ok (t.removeAt length length)

def rawLength (t : Table) : Int64 := Int64.ofNat t.length

def insert (t : Table) (position : Int64) (value : Value) : Except Error Table :=
  t.insertWithin t.rawLength position value

def remove (t : Table) (position : Option Int64) : Except Error (Value × Table) :=
  t.removeWithin t.rawLength position

/-! ## Concatenation -/

/-- Only strings and numbers have a text that is concatenated. -/
def elementText? : Value → Option String
  | .string s => some s
  | .integer i => some (integerText i)
  | .float x => some x.text
  | _ => none

/-- The texts of `n` elements from `start` on; the first element without one is named. -/
def elementTexts (t : Table) : (start : Int) → (n : Nat) → Except Error (List String)
  | _, 0 => .ok []
  | start, n + 1 =>
    match elementText? (t.getAt start) with
    | none => .error (.runtime (.notConcatenable (Int64.ofInt start)))
    | some text =>
      match elementTexts t (start + 1) n with
      | .error e => .error e
      | .ok rest => .ok (text :: rest)

/-- The texts of the elements `first, …, last` with the separator between neighbours. -/
def concatRange (t : Table) (separator : String) (first last : Int64) : Except Error String :=
  match t.elementTexts first.toInt (last.toInt + 1 - first.toInt).toNat with
  | .error e => .error e
  | .ok texts => .ok (separated separator texts)

/-- The range is the whole sequence where it is not given. -/
def concat (t : Table) (separator : String) (first last : Option Int64) : Except Error String :=
  t.concatRange separator (first.getD 1) (last.getD t.rawLength)

end LuaHost.Table

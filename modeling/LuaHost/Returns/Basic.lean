import LuaHost.Returns.Category
import LuaHost.Text.Separated
import LuaHost.Value.Text

/-!
# LuaHost.Returns.Basic

The values a call produces: a window of a frozen buffer. Trailing nils are not counted, and reading
past the end gives nil.

- `Returns.toList`, `Returns.get`: reading.
- `Returns.drop`, `Returns.take`: smaller windows of the same buffer.
- `Returns.get_ofList`, `Returns.get_drop`, `Returns.get_take`: what is read from each of them.
- `Returns.join`: putting a tail behind a head, without copying where the tail already lies there.
- `Returns.conform`: limiting values to typed slots, where a value that does not fit reads as nil.

Building returns allocates buffers and may report misfits; `Build` keeps account of both.
-/

namespace LuaHost

/-! ## Buffers -/

/-- A frozen list of values; two buffers of equal content are told apart by their number. -/
structure Buffer where
  number : Nat
  values : List Value
deriving DecidableEq, Inhabited, Repr

structure Misfit where
  position : Nat
  expected : Category
  found : Kind
deriving DecidableEq, Repr

/-- What building returns has used up and reported. -/
structure Ledger where
  nextBuffer : Nat := 0
  misfits : List Misfit := []
deriving DecidableEq, Inhabited, Repr

abbrev Build := StateM Ledger

structure Returns where
  buffer : Buffer
  offset : Nat
  count : Nat
deriving DecidableEq, Inhabited, Repr

def trimmedLength : List Value → Nat
  | [] => 0
  | value :: rest =>
    match trimmedLength rest with
    | 0 => if value.isNil then 0 else 1
    | n + 1 => n + 2

theorem trimmedLength_le (values : List Value) : trimmedLength values ≤ values.length := by
  induction values with
  | nil => exact Nat.le_refl 0
  | cons value rest ih =>
    simp only [trimmedLength, List.length_cons]
    split
    · split <;> omega
    · omega

theorem isNil_of_trimmedLength_le {values : List Value} {i : Nat} (h : trimmedLength values ≤ i) :
    Value.ofOption values[i]? = .nil := by
  induction values generalizing i with
  | nil => rfl
  | cons value rest ih =>
    simp only [trimmedLength] at h
    cases i with
    | zero =>
      split at h
      · split at h
        · rename_i hnil
          cases value <;> simp_all [Value.isNil, Value.ofOption]
        · omega
      · omega
    | succ i =>
      rw [List.getElem?_cons_succ]
      apply ih
      split at h
      · rename_i hzero
        omega
      · omega

namespace Returns

/-! ## Reading -/

/-- The counted values; nils between others are among them. -/
def toList (r : Returns) : List Value := (r.buffer.values.drop r.offset).take r.count

def length (r : Returns) : Nat := r.count

def isEmpty (r : Returns) : Bool := r.count == 0

/-- The value at a position; nil past the end. -/
def get (r : Returns) (i : Nat) : Value :=
  if i < r.count then Value.ofOption r.buffer.values[r.offset + i]? else .nil

def first (r : Returns) : Value := r.get 0

/-- The values at the first `n` positions, nils where there are no more. -/
def firstValues (r : Returns) (n : Nat) : List Value := (List.range n).map r.get

def sharesBuffer (r s : Returns) : Bool := r.buffer == s.buffer

def equals (r s : Returns) : Bool := Value.listRawEq r.toList s.toList

def debugText (r : Returns) : String :=
  "[" ++ separated ", " (r.toList.map Value.debugText) ++ "]"

/-! ## Building -/

def ofList (values : List Value) : Build Returns :=
  modifyGet fun ledger =>
    (⟨⟨ledger.nextBuffer, values⟩, 0, trimmedLength values⟩,
      { ledger with nextBuffer := ledger.nextBuffer + 1 })

def empty : Build Returns := ofList []

def drop (r : Returns) (n : Nat) : Returns :=
  let skipped := min n r.count
  { r with offset := r.offset + skipped, count := r.count - skipped }

/-- The first `n` positions, less the nils that are now trailing. -/
def take (r : Returns) (n : Nat) : Returns :=
  { r with count := trimmedLength ((r.buffer.values.drop r.offset).take (min n r.count)) }

/-- The first `position` positions of the head with the tail behind them. The head's window is
extended where the tail already lies at that position of its buffer; else the values are copied. -/
def join (head : Returns) (position : Nat) (tail : Returns) : Build Returns :=
  let head := head.take position
  if tail.isEmpty then
    pure head
  else if head.sharesBuffer tail && tail.offset == head.offset + position then
    pure { head with count := position + tail.count }
  else
    ofList (head.firstValues position ++ tail.toList)

/-! ## Reading what was built -/

theorem get_of_length_le (r : Returns) {i : Nat} (h : r.length ≤ i) : r.get i = .nil :=
  if_neg (Nat.not_lt.2 h)

theorem get_drop (r : Returns) (n i : Nat) : (r.drop n).get i = r.get (n + i) := by
  show (if i < r.count - min n r.count then
      Value.ofOption r.buffer.values[r.offset + min n r.count + i]? else .nil) =
    if n + i < r.count then Value.ofOption r.buffer.values[r.offset + (n + i)]? else .nil
  by_cases hn : n ≤ r.count
  · rw [Nat.min_eq_left hn, Nat.add_assoc]
    by_cases hi : i < r.count - n
    · rw [if_pos hi, if_pos (by omega)]
    · rw [if_neg hi, if_neg (by omega)]
  · rw [if_neg (by omega), if_neg (by omega)]

theorem get_take (r : Returns) (n i : Nat) :
    (r.take n).get i = if i < n then r.get i else .nil := by
  show (if i < trimmedLength ((r.buffer.values.drop r.offset).take (min n r.count)) then
      Value.ofOption r.buffer.values[r.offset + i]? else .nil) =
    if i < n then (if i < r.count then Value.ofOption r.buffer.values[r.offset + i]? else .nil)
    else .nil
  have hle := trimmedLength_le ((r.buffer.values.drop r.offset).take (min n r.count))
  simp only [List.length_take, List.length_drop] at hle
  split
  · rw [if_pos (by omega), if_pos (by omega)]
  · rename_i h
    by_cases hn : i < n
    · rw [if_pos hn]
      by_cases hc : i < r.count
      · have hnil := isNil_of_trimmedLength_le (Nat.le_of_not_lt h)
        rw [List.getElem?_take_of_lt (by omega), List.getElem?_drop] at hnil
        rw [if_pos hc, hnil]
      · rw [if_neg hc]
    · rw [if_neg hn]

theorem get_ofList (values : List Value) (ledger : Ledger) (i : Nat) :
    ((ofList values).run ledger).1.get i = Value.ofOption values[i]? := by
  show (if i < trimmedLength values then Value.ofOption values[0 + i]? else .nil) = _
  rw [Nat.zero_add]
  split
  · rfl
  · rename_i h
    rw [isNil_of_trimmedLength_le (Nat.le_of_not_lt h)]

/-! ## Typed slots -/

/-- The positions whose value the slot does not accept, in order. -/
def misfits (r : Returns) (slots : List Category) : List Misfit :=
  slots.zipIdx.filterMap fun (slot, i) =>
    if slot.accepts (r.get i) then none else some ⟨i, slot, (r.get i).kind⟩

/-- The values at the slots' positions, nil where the slot does not accept the value. -/
def fitted (r : Returns) (slots : List Category) : List Value :=
  slots.zipIdx.map fun (slot, i) => if slot.accepts (r.get i) then r.get i else .nil

def report (misfits : List Misfit) : Build Unit :=
  modify fun ledger => { ledger with misfits := ledger.misfits ++ misfits }

/-- The values at the slots' positions, where each that does not fit is reported and reads as nil.
The window stays on its buffer when all fit. -/
def conform (r : Returns) (slots : List Category) : Build Returns := do
  let head := r.take slots.length
  match head.misfits slots with
  | [] => pure head
  | found =>
    report found
    ofList (head.fitted slots)

end Returns
end LuaHost

/-!
# LuaHost.Number.Double

Binary64 numbers as bit patterns. A finite double is exactly
`(-1) ^ negative * significand * 2 ^ scale`; every question about it is answered in `Nat` and `Int`.

- `Double.integer?`, `Double.int64?`: the exact integer a double is, and its 64-bit form.
- `Double.equals`: numeric equality.
- `Double.ofRatio`, `Double.ofInt`: rounding to the nearest double, ties to even.
-/

namespace LuaHost

/-- A binary64 number. Keeping the bits keeps the sign of zeros and of NaNs. -/
structure Double where
  bits : UInt64
deriving DecidableEq, Inhabited, Repr

namespace Double

/-! ## Fields -/

-- powers are applied by name: what the notation stands for depends on the imports
def negative (x : Double) : Bool := decide (Nat.pow 2 63 ≤ x.bits.toNat)

/-- The bits without the sign; they grow with the absolute value. -/
def magnitude (x : Double) : Nat := x.bits.toNat % Nat.pow 2 63

/-- The magnitude of the two infinities; those above it are NaNs. -/
def infinityMagnitude : Nat := 2047 * Nat.pow 2 52

def isNaN (x : Double) : Bool := decide (infinityMagnitude < x.magnitude)

def isInfinite (x : Double) : Bool := decide (x.magnitude = infinityMagnitude)

def isFinite (x : Double) : Bool := decide (x.magnitude < infinityMagnitude)

def isZero (x : Double) : Bool := decide (x.magnitude = 0)

def exponentField (x : Double) : Nat := x.magnitude / Nat.pow 2 52

def fraction (x : Double) : Nat := x.magnitude % Nat.pow 2 52

/-- The integer significand of a finite double; the leading bit of normal numbers is implicit. -/
def significand (x : Double) : Nat :=
  if x.exponentField = 0 then x.fraction else Nat.pow 2 52 + x.fraction

/-- The power of two that a unit of the significand stands for. -/
def scale (x : Double) : Int := max (x.exponentField : Int) 1 - 1075

def ofMagnitude (negative : Bool) (magnitude : Nat) : Double :=
  ⟨UInt64.ofNat (if negative then Nat.pow 2 63 + magnitude else magnitude)⟩

/-! ## Exact integers -/

/-- The integer that a double is exactly, if it is one. -/
def integer? (x : Double) : Option Int :=
  let place := Nat.pow 2 (-x.scale).toNat
  if x.isFinite && x.significand % place == 0 then
    let n := x.significand / place * Nat.pow 2 x.scale.toNat
    some (if x.negative then -(n : Int) else n)
  else
    none

/-- The 64-bit integer that a double is exactly, if it is one. -/
def int64? (x : Double) : Option Int64 :=
  match x.integer? with
  | some n => if -Int.pow 2 63 ≤ n ∧ n < Int.pow 2 63 then some (Int64.ofInt n) else none
  | none => none

/-- Numeric equality: a NaN equals nothing, and the two zeros are equal. -/
def equals (x y : Double) : Bool :=
  !x.isNaN && !y.isNaN && (x.bits == y.bits || (x.isZero && y.isZero))

/-! ## Rounding -/

/-- The integer nearest to `num / den`, a half going to the even neighbour. -/
def roundQuotient (num den : Nat) : Nat :=
  let q := num / den
  let r := num % den
  if 2 * r < den ∨ (2 * r = den ∧ q % 2 = 0) then q else q + 1

/-- The exponent of the greatest power of two that is at most `num / den`, both being positive. -/
def floorLog2 (num den : Nat) : Int :=
  let guess : Int := num.log2 - den.log2
  if den * Nat.pow 2 guess.toNat ≤ num * Nat.pow 2 (-guess).toNat then guess else guess - 1

/-- The double nearest to `num / den`, ties to even; infinity from half a unit past the greatest
finite double on. A significand that rounds up to the next power of two carries into the exponent. -/
def ofRatio (negative : Bool) (num den : Nat) : Double :=
  if num = 0 then
    ofMagnitude negative 0
  else
    let e := max (floorLog2 num den - 52) (-1074)
    let q := roundQuotient (num * Nat.pow 2 (-e).toNat) (den * Nat.pow 2 e.toNat)
    ofMagnitude negative (min ((e + 1074).toNat * Nat.pow 2 52 + q) infinityMagnitude)

def ofInt (n : Int) : Double := ofRatio (decide (n < 0)) n.natAbs 1

end Double
end LuaHost

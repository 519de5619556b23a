import LuaHost.Number.Numeral

/-!
# LuaHost.Number.Shortest

The shortest decimal that reads back as a given double, found in exact integer arithmetic.

The reals that round to a double form an interval around it, whose ends belong to it exactly when the
significand is even. A decimal with a given number of digits lies in the interval only if one of the
two neighbours of the double on that decimal grid does, so the first grid with such a neighbour gives
the fewest digits, and of two such neighbours the nearer is taken.

- `Double.shortest`: the digits and the place of the point.
-/

namespace LuaHost

inductive Tie where
  | up
  | even
deriving DecidableEq, Repr

/-- The reals that round to one double, as numerators over the denominator `unit`. -/
structure RoundingInterval where
  low : Nat
  value : Nat
  high : Nat
  unit : Nat
  closed : Bool

namespace RoundingInterval

/-- The interval of a finite positive double. Below a power of two the neighbour is half as far. -/
def ofDouble (x : Double) : RoundingInterval :=
  let m := x.significand
  let up := Nat.pow 2 (x.scale - 2).toNat
  let below := if x.fraction = 0 ∧ 1 < x.exponentField then 1 else 2
  { low := (4 * m - below) * up
    value := 4 * m * up
    high := (4 * m + 2) * up
    unit := Nat.pow 2 (2 - x.scale).toNat
    closed := m % 2 == 0 }

/-- The multiple of `10 ^ place` in the interval that is nearest to its value, if there is one. -/
def candidate? (tie : Tie) (i : RoundingInterval) (place : Int) : Option Nat :=
  let unit := i.unit * Nat.pow 10 place.toNat
  let factor := Nat.pow 10 (-place).toNat
  let inside (c : Nat) : Bool :=
    if i.closed then i.low * factor ≤ c * unit && c * unit ≤ i.high * factor
    else i.low * factor < c * unit && c * unit < i.high * factor
  let value := i.value * factor
  let c := value / unit
  match inside c, inside (c + 1) with
  | false, false => none
  | true, false => some c
  | false, true => some (c + 1)
  | true, true =>
    if 2 * value < (2 * c + 1) * unit then some c
    else if (2 * c + 1) * unit < 2 * value then some (c + 1)
    else
      match tie with
      | .up => some (c + 1)
      | .even => if c % 2 = 0 then some c else some (c + 1)

def leadingPlace (i : RoundingInterval) : Int :=
  let guess : Int := (Nat.toDigits 10 i.value).length - (Nat.toDigits 10 i.unit).length
  if i.unit * Nat.pow 10 guess.toNat ≤ i.value * Nat.pow 10 (-guess).toNat then guess else guess - 1

end RoundingInterval

namespace Double

/-- The shortest decimal that reads back as the absolute value of a finite double, without trailing
zeros. Seventeen digits always suffice. -/
def shortest (tie : Tie) (x : Double) : Numeral :=
  if x.isZero then
    ⟨['0'], 1⟩
  else
    let i := RoundingInterval.ofDouble x
    let numeral (c : Nat) (place : Int) : Numeral :=
      let ds := Nat.toDigits 10 c
      ⟨(ds.reverse.dropWhile (· == '0')).reverse, ds.length + place⟩
    let found := (List.range 17).findSome? fun (n : Nat) =>
      let place := i.leadingPlace - n
      (i.candidate? tie place).map (numeral · place)
    found.getD ⟨['0'], 1⟩

end Double
end LuaHost

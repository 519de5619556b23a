import LuaHost.Number.Double

/-!
# LuaHost.Number.Numeral

Decimal numerals: a digit string and the place of its decimal point.

- `Numeral.positional`, `Numeral.scientific`: the two ways of writing one.
- `Double.ofDecimal?`: the double nearest to a decimal, refused when it overflows.
-/

namespace LuaHost

/-- The decimal `0.d₁d₂… * 10 ^ point`, whose digits are `d₁d₂…`. -/
structure Numeral where
  digits : List Char
  point : Int
deriving DecidableEq, Repr

namespace Numeral

def whole (n : Numeral) : List Char :=
  if n.point ≤ 0 then ['0']
  else n.digits.take n.point.toNat ++ List.replicate (n.point.toNat - n.digits.length) '0'

def decimals (n : Numeral) : List Char :=
  List.replicate (-n.point).toNat '0' ++ n.digits.drop n.point.toNat

/-- Digits in their places; no point when no digit follows it. -/
def positional (n : Numeral) : List Char :=
  match n.decimals with
  | [] => n.whole
  | ds => n.whole ++ '.' :: ds

/-- Digits in their places, with at least one after the point. -/
def positionalWithPoint (n : Numeral) : List Char :=
  match n.decimals with
  | [] => n.whole ++ ['.', '0']
  | ds => n.whole ++ '.' :: ds

/-- One digit, the others after a point, and a signed power of ten. -/
def scientific (n : Numeral) : List Char :=
  let e := n.point - 1
  let power := (if e < 0 then '-' else '+') :: Nat.toDigits 10 e.natAbs
  match n.digits with
  | d :: ds@(_ :: _) => d :: '.' :: (ds ++ 'e' :: power)
  | ds => ds ++ 'e' :: power

end Numeral

namespace Double

/-- The double nearest to `± digits * 10 ^ exponent`, rounded once from the exact value; none when it
rounds to an infinity. Multiplying the digits by a power of ten in doubles gives the same only where
both are exact. Exponents far outside the range of doubles are settled by counting digits. -/
def ofDecimal? (negative : Bool) (digits : Nat) (exponent : Int) : Option Double :=
  let size := ((Nat.toDigits 10 digits).length : Int) + exponent
  if digits = 0 ∨ size < -330 then
    some (ofMagnitude negative 0)
  else if 310 < size then
    none
  else
    let x := ofRatio negative (digits * Nat.pow 10 exponent.toNat) (Nat.pow 10 (-exponent).toNat)
    if x.isFinite then some x else none

end Double
end LuaHost

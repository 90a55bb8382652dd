import NestedStyles.Numeric.Binary64

/-!
# Shortest decimals

`Binary64.shortest` is the decimal with the fewest digits that rounds back to a finite nonzero
magnitude; among those with equally few digits it is the closest, and of two equally close the
larger. Only the two neighbours of the magnitude on each decimal grid need to be tried: if any
point of the grid rounds back, one of them does.
-/

namespace NestedStyles

/-- The number `coefficient * 10 ^ exponent`. -/
structure Decimal where
  coefficient : Nat
  exponent : Int
deriving DecidableEq, Repr

namespace Decimal

/-- The rank of the double closest to a decimal. -/
def rank (d : Decimal) : Nat :=
  Binary64.nearestRank (d.coefficient * Nat.pow 10 d.exponent.toNat * Binary64.unitsPerOne)
    (Nat.pow 10 (-d.exponent).toNat)

/-- The decimal digits, without the zeros at the end. -/
def digits (d : Decimal) : List Char :=
  ((Nat.toDigits 10 d.coefficient).reverse.dropWhile (· = '0')).reverse

/-- Where the decimal point stands, counted from the front of the digits: the decimal is
`0.d₁d₂… * 10 ^ point`. -/
def point (d : Decimal) : Int := d.exponent + (Nat.toDigits 10 d.coefficient).length

end Decimal

namespace Binary64

/-- The exponent of the leading decimal digit of `u` units, for `0 < u`. -/
def leadingExponent (u : Nat) : Int :=
  if u < unitsPerOne then -((Nat.toDigits 10 ((unitsPerOne - 1) / u)).length : Int)
  else (Nat.toDigits 10 (u / unitsPerOne)).length - 1

/-- The multiple of `10 ^ exponent` that rounds back to rank `r`, if one of the two next to its
magnitude does: the closer one, and the larger when they are equally close. -/
def roundTripAt (r : Nat) (exponent : Int) : Option Decimal :=
  let n := unitsOfRank r * Nat.pow 10 (-exponent).toNat
  let d := unitsPerOne * Nat.pow 10 exponent.toNat
  let below : Decimal := ⟨n / d, exponent⟩
  let above : Decimal := ⟨n / d + 1, exponent⟩
  if below.rank = r then some (if above.rank = r ∧ d ≤ 2 * (n % d) then above else below)
  else if above.rank = r then some above
  else none

/-- The decimal that is exactly `u` units. `shortest` never needs it. -/
def exactDecimal (u : Nat) : Decimal := ⟨u * Nat.pow 5 1074, -1074⟩

/-- The shortest decimal that rounds back to a finite nonzero rank. Seventeen digits always
suffice. -/
def shortest (r : Nat) : Decimal :=
  let u := unitsOfRank r
  let lead := leadingExponent u
  ((List.range 17).findSome? fun (n : Nat) => roundTripAt r (lead - n)).getD (exactDecimal u)

end Binary64
end NestedStyles

import NestedStyles.Numeric.Shortest

/-!
# Numerals

How a number is written in a style sheet: the digits of its shortest decimal, in positional
notation from `10⁻⁶` to below `10²¹` and in exponent notation outside, with every digit kept and
none added that does not hold a place.
-/

namespace NestedStyles

/-- The numeral with digits `ds` and its decimal point after `point` of them. -/
def layOut (ds : List Char) (point : Int) : List Char :=
  if ds.length ≤ point ∧ point ≤ 21 then
    ds ++ List.replicate (point.toNat - ds.length) '0'
  else if 0 < point ∧ point ≤ 21 then
    ds.take point.toNat ++ '.' :: ds.drop point.toNat
  else if -6 < point ∧ point ≤ 0 then
    '0' :: '.' :: (List.replicate (-point).toNat '0' ++ ds)
  else
    let fraction := ds.drop 1
    ds.take 1 ++ (if fraction.isEmpty then [] else '.' :: fraction) ++
      'e' :: (if point ≤ 0 then '-' else '+') :: Nat.toDigits 10 (point - 1).natAbs

namespace Binary64

/-- The numeral of the magnitude with a finite nonzero rank. -/
def numeral (r : Nat) : List Char := layOut (shortest r).digits (shortest r).point

/-- The text of a number. Both zeros are written `0`. -/
def text (x : Binary64) : String :=
  if x.isNaN then "NaN"
  else if x.isInfinite then if x.negative then "-Infinity" else "Infinity"
  else if x.rank = 0 then "0"
  else String.ofList (if x.negative then '-' :: numeral x.rank else numeral x.rank)

end Binary64
end NestedStyles

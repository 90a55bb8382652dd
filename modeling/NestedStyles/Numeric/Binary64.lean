/-!
# Binary64 numbers

A `Binary64` is its 64 bits. What is said about it is exact arithmetic on naturals: the magnitude
of a finite number is a whole number of *units* of `2⁻¹⁰⁷⁴`, and every operation is its exact
result rounded once by `nearestRank`.

Magnitudes are numbered from zero upward by their *rank*, the bits below the sign: first the
finite ones in ascending order, then infinity, then the NaNs.
-/

namespace NestedStyles

/-- The natural closest to `n / d`; of two equally close, the even one. -/
def roundHalfEven (n d : Nat) : Nat :=
  let q := n / d
  let r := n % d
  if 2 * r < d then q else if d < 2 * r then q + 1 else q + q % 2

/-- A double-precision number, told apart by its bits. -/
structure Binary64 where
  bits : UInt64
deriving DecidableEq, Repr

namespace Binary64

/-- The units in the number one. -/
def unitsPerOne : Nat := Nat.pow 2 1074

/-- The bit in front of the exponent. -/
def signBit : Nat := 0x8000000000000000

/-- The bit in front of the fraction, which is also the first significand of full length. -/
def leadingBit : Nat := 0x10000000000000

/-- Ranks below it are finite, ranks above it are NaNs. -/
def infinityRank : Nat := 2047 * leadingBit

/-- Whether the sign bit is set, which it can be for a zero and for a NaN. -/
def negative (x : Binary64) : Bool := signBit ≤ x.bits.toNat

/-- The bits below the sign, which number the magnitudes. -/
def rank (x : Binary64) : Nat := x.bits.toNat % signBit

/-- Whether the bits stand for no number. -/
def isNaN (x : Binary64) : Bool := infinityRank < x.rank

def isInfinite (x : Binary64) : Bool := x.rank == infinityRank

def isFinite (x : Binary64) : Bool := x.rank < infinityRank

/-- The number with a sign and a rank. -/
def ofRank (negative : Bool) (rank : Nat) : Binary64 :=
  ⟨UInt64.ofNat (rank + if negative then signBit else 0)⟩

/-- The quiet NaN without a sign, in which operations without a result end. -/
def nan : Binary64 := ofRank false (infinityRank + leadingBit / 2)

def infinity (negative : Bool) : Binary64 := ofRank negative infinityRank

def zero (negative : Bool) : Binary64 := ofRank negative 0

/-- The units in the magnitude of a finite rank. Up to `2 * leadingBit` each rank is one unit more
than the last, and from there the spacing doubles with every `leadingBit` ranks. -/
def unitsOfRank (r : Nat) : Nat :=
  if r < leadingBit then r
  else (leadingBit + r % leadingBit) * Nat.pow 2 (r / leadingBit - 1)

/-- The units in the magnitude of a finite number. -/
def units (x : Binary64) : Nat := unitsOfRank x.rank

/-- The rank whose magnitude is closest to `n / d` units; of two equally close, the one with the
even significand. From half a step above the largest finite magnitude it is infinity. -/
def nearestRank (n d : Nat) : Nat :=
  let scale := (n / d).log2 - 52
  min infinityRank (scale * leadingBit + roundHalfEven n (d * Nat.pow 2 scale))

/-- The number closest to `n / d`, of the given sign. -/
def ofRatio (negative : Bool) (n d : Nat) : Binary64 :=
  ofRank negative (nearestRank (n * unitsPerOne) d)

/-- The number closest to an integer. -/
def ofInt (i : Int) : Binary64 := ofRatio (i < 0) i.natAbs 1

/-- The number of a single-precision word, which a double always holds exactly. -/
def ofBinary32 (word : UInt32) : Binary64 :=
  let negative := 0x80000000 ≤ word.toNat
  let exponent := word.toNat / 0x800000 % 0x100
  let fraction := word.toNat % 0x800000
  if exponent = 255 then ofRank negative (infinityRank + fraction * 0x20000000)
  else
    let units :=
      if exponent = 0 then fraction else (0x800000 + fraction) * Nat.pow 2 (exponent - 1)
    ofRatio negative units (Nat.pow 2 149)

/-- The number with the other sign, also of a zero or a NaN. -/
def neg (x : Binary64) : Binary64 := ofRank (!x.negative) x.rank

/-- The product of two numbers, rounded once. -/
def mul (x y : Binary64) : Binary64 :=
  let negative := x.negative != y.negative
  if x.isNaN || y.isNaN then nan
  else if x.isInfinite || y.isInfinite then
    if x.rank = 0 || y.rank = 0 then nan else infinity negative
  else ofRatio negative (x.units * y.units) (unitsPerOne * unitsPerOne)

/-- The quotient of two numbers, rounded once. -/
def div (x y : Binary64) : Binary64 :=
  let negative := x.negative != y.negative
  if x.isNaN || y.isNaN then nan
  else if x.isInfinite then if y.isInfinite then nan else infinity negative
  else if y.isInfinite then zero negative
  else if y.rank = 0 then if x.rank = 0 then nan else infinity negative
  else ofRatio negative x.units y.units

instance : Neg Binary64 := ⟨neg⟩
instance : Mul Binary64 := ⟨mul⟩
instance : Div Binary64 := ⟨div⟩

/-- Equality of numbers: a NaN differs from everything, itself included, and the two zeros are
equal. -/
def agrees (x y : Binary64) : Bool :=
  !x.isNaN && !y.isNaN && x.rank == y.rank && (x.rank == 0 || x.negative == y.negative)

end Binary64
end NestedStyles

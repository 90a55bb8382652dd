import Mathlib.Data.Nat.Cast.Order.Field
import NestedStyles.Proofs.Numeric.Digits
import NestedStyles.Proofs.Numeric.Magnitude

/-!
# Decimal grids

The multiples of a power of ten form a grid, and `Binary64.roundTripAt` tries the two of them next
to a magnitude. That is enough: rounding keeps the order, so a point of the grid that rounds back
can be moved towards the magnitude up to the last point on its side (`Binary64.rank_gridFloor`).
What is found is as close as any point of the grid that rounds back
(`Binary64.isRoundTrip_of_roundTripAt`), and if nothing is found, then none does
(`Binary64.rank_ne_of_roundTripAt`).
-/

namespace NestedStyles

/-! ## Powers of ten -/

theorem ten_zpow_pos (e : Int) : (0 : Rat) < 10 ^ e := zpow_pos (by norm_num) e

theorem ten_zpow_eq_div (e : Int) :
    (10 : Rat) ^ e = (Nat.pow 10 e.toNat : Nat) / (Nat.pow 10 (-e).toNat : Nat) := by
  have hsplit := zpow_sub₀ (by norm_num : (10 : Rat) ≠ 0) e.toNat (-e).toNat
  rw [Int.toNat_sub_toNat_neg, zpow_natCast, zpow_natCast] at hsplit
  rw [hsplit]
  norm_cast

theorem natCast_ten_pow_mul (n : Nat) (e : Int) :
    ((10 ^ n : Nat) : Rat) * 10 ^ e = 10 ^ (n + e) := by
  rw [zpow_add₀ (by norm_num), zpow_natCast, Nat.cast_pow, Nat.cast_ofNat]

namespace Decimal

/-- The rational that a decimal stands for. -/
def toRat (d : Decimal) : Rat := d.coefficient * 10 ^ d.exponent

theorem toRat_nonneg (d : Decimal) : 0 ≤ d.toRat :=
  mul_nonneg (Nat.cast_nonneg _) (ten_zpow_pos _).le

/-- A decimal has the rank of the rational that it stands for. -/
theorem rank_eq (d : Decimal) : d.rank = Binary64.rankOfRat d.toRat := by
  have hratio : d.toRat =
      (d.coefficient * Nat.pow 10 d.exponent.toNat : Nat) /
        (Nat.pow 10 (-d.exponent).toNat : Nat) := by
    rw [toRat, ten_zpow_eq_div, Nat.cast_mul, mul_div_assoc]
  have hpos : 0 < Nat.pow 10 (-d.exponent).toNat := Nat.pow_pos (by decide)
  rw [hratio, Binary64.rankOfRat_div _ hpos, rank]

theorem toRat_one (e : Int) : (⟨1, e⟩ : Decimal).toRat = 10 ^ e := by
  rw [toRat, Nat.cast_one, one_mul]

theorem toRat_le_toRat_iff {c c' : Nat} {e : Int} :
    (⟨c, e⟩ : Decimal).toRat ≤ (⟨c', e⟩ : Decimal).toRat ↔ c ≤ c' := by
  rw [toRat, toRat, mul_le_mul_iff_of_pos_right (ten_zpow_pos e), Nat.cast_le]

theorem toRat_le_toRat {c c' : Nat} (h : c ≤ c') (e : Int) :
    (⟨c, e⟩ : Decimal).toRat ≤ (⟨c', e⟩ : Decimal).toRat :=
  toRat_le_toRat_iff.mpr h

/-- A decimal is a point of every finer grid. -/
theorem toRat_refine (c n : Nat) (e : Int) :
    (⟨c * 10 ^ n, e⟩ : Decimal).toRat = (⟨c, n + e⟩ : Decimal).toRat := by
  rw [toRat, toRat, Nat.cast_mul, mul_assoc, natCast_ten_pow_mul]

/-- A decimal is its digits with the point in its place. -/
theorem toRat_eq_digits (d : Decimal) :
    d.toRat = (⟨digitsValue d.digits, d.point - d.digits.length⟩ : Decimal).toRat := by
  obtain ⟨zeros, hzeros⟩ := d.toDigits_coefficient
  have hpoint : d.point - d.digits.length = zeros + d.exponent := by
    rw [point, hzeros, List.length_append, List.length_replicate]
    push_cast
    ring
  rw [hpoint, ← toRat_refine, ← coefficient_eq hzeros]

/-- The point stands behind the leading digit's power of ten. -/
theorem toRat_bounds {d : Decimal} (h : d.coefficient ≠ 0) :
    10 ^ (d.point - 1) ≤ d.toRat ∧ d.toRat < 10 ^ d.point := by
  obtain ⟨k, hk, hlow, hhigh⟩ := exists_length_toDigits h
  have hlead : d.point - 1 = k + d.exponent := by
    rw [point, hk]
    push_cast
    ring
  have hnext : d.point = (k + 1 : Nat) + d.exponent := by
    rw [point, hk, add_comm]
  rw [hlead, hnext, ← natCast_ten_pow_mul, ← natCast_ten_pow_mul, toRat,
    mul_le_mul_iff_of_pos_right (ten_zpow_pos _), mul_lt_mul_iff_of_pos_right (ten_zpow_pos _),
    Nat.cast_le, Nat.cast_lt]
  exact ⟨hlow, hhigh⟩

theorem coefficient_ne_zero {d : Decimal} (h : d.rank ≠ 0) : d.coefficient ≠ 0 := by
  intro hzero
  refine h ?_
  rw [rank_eq, toRat, hzero, Nat.cast_zero, zero_mul, Binary64.rankOfRat_zero]

end Decimal

namespace Binary64

/-! ## Next to a magnitude on a grid -/

/-- The last point of a decimal grid that does not exceed a magnitude. -/
def gridFloor (r : Nat) (e : Int) : Nat :=
  unitsOfRank r * Nat.pow 10 (-e).toNat / (unitsPerOne * Nat.pow 10 e.toNat)

section
variable {r : Nat} {e : Int}

theorem gridScale_pos (e : Int) : 0 < unitsPerOne * Nat.pow 10 e.toNat :=
  Nat.mul_pos unitsPerOne_pos (Nat.pow_pos (by decide))

theorem magnitude_eq_div_mul (r : Nat) (e : Int) : magnitude r =
    (unitsOfRank r * Nat.pow 10 (-e).toNat : Nat) / (unitsPerOne * Nat.pow 10 e.toNat : Nat) *
      10 ^ e := by
  have hunit := unitsPerOne_pos_rat.ne'
  have hup : ((Nat.pow 10 e.toNat : Nat) : Rat) ≠ 0 :=
    Nat.cast_ne_zero.mpr (Nat.pow_pos (by decide)).ne'
  have hdown : ((Nat.pow 10 (-e).toNat : Nat) : Rat) ≠ 0 :=
    Nat.cast_ne_zero.mpr (Nat.pow_pos (by decide)).ne'
  rw [magnitude, ten_zpow_eq_div, Nat.cast_mul, Nat.cast_mul]
  field_simp

theorem gridFloor_le : (⟨gridFloor r e, e⟩ : Decimal).toRat ≤ magnitude r := by
  rw [magnitude_eq_div_mul r e]
  exact mul_le_mul_of_nonneg_right Nat.cast_div_le (ten_zpow_pos e).le

theorem lt_gridFloor_succ : magnitude r < (⟨gridFloor r e + 1, e⟩ : Decimal).toRat := by
  have hpos := gridScale_pos e
  rw [magnitude_eq_div_mul r e]
  refine mul_lt_mul_of_pos_right ?_ (ten_zpow_pos e)
  unfold gridFloor
  generalize unitsPerOne * Nat.pow 10 e.toNat = d at *
  rw [div_lt_iff₀ (Nat.cast_pos.mpr hpos), ← Nat.cast_mul, Nat.cast_lt]
  exact (Nat.lt_mul_div_succ _ hpos).trans_eq (Nat.mul_comm ..)

/-- The grid point below a magnitude is the last one that is not above it. -/
theorem le_gridFloor_iff {c : Nat} :
    c ≤ gridFloor r e ↔ (⟨c, e⟩ : Decimal).toRat ≤ magnitude r := by
  constructor
  · intro h
    exact (Decimal.toRat_le_toRat h e).trans gridFloor_le
  · intro h
    by_contra hlt
    exact absurd (lt_gridFloor_succ.trans_le ((Decimal.toRat_le_toRat (not_le.mp hlt) e).trans h))
      (lt_irrefl _)

/-- The remainder of a magnitude behind a point of the grid. -/
def gridRemainder (r : Nat) (e : Int) : Nat :=
  unitsOfRank r * Nat.pow 10 (-e).toNat % (unitsPerOne * Nat.pow 10 e.toNat)

/-- What `roundTripAt` tries are the two grid points next to the magnitude. -/
theorem roundTripAt_eq (r : Nat) (e : Int) : roundTripAt r e =
    if (⟨gridFloor r e, e⟩ : Decimal).rank = r then
      some (if (⟨gridFloor r e + 1, e⟩ : Decimal).rank = r ∧
          unitsPerOne * Nat.pow 10 e.toNat ≤ 2 * gridRemainder r e
        then ⟨gridFloor r e + 1, e⟩ else ⟨gridFloor r e, e⟩)
    else if (⟨gridFloor r e + 1, e⟩ : Decimal).rank = r then some ⟨gridFloor r e + 1, e⟩
    else none := rfl

/-- Which of the two neighbours is closer shows in the remainder. -/
theorem gridScale_le_iff : unitsPerOne * Nat.pow 10 e.toNat ≤ 2 * gridRemainder r e ↔
    (⟨gridFloor r e + 1, e⟩ : Decimal).toRat - magnitude r ≤
      magnitude r - (⟨gridFloor r e, e⟩ : Decimal).toRat := by
  have hpos := gridScale_pos e
  have hmagnitude := magnitude_eq_div_mul r e
  unfold Decimal.toRat gridFloor gridRemainder
  generalize unitsPerOne * Nat.pow 10 e.toNat = d at *
  generalize unitsOfRank r * Nat.pow 10 (-e).toNat = n at *
  have hd : (0 : Rat) < d := Nat.cast_pos.mpr hpos
  have hdiv : ((n / d : Nat) : Rat) * d + (n % d : Nat) = n := by
    exact_mod_cast Nat.div_add_mod' n d
  have hn : (n : Rat) / d = (n / d : Nat) + (n % d : Nat) / d := by
    rw [← hdiv]
    field_simp
  rw [hmagnitude, hn, ← sub_mul, ← sub_mul, mul_le_mul_iff_of_pos_right (ten_zpow_pos e),
    ← Nat.cast_le (α := Rat)]
  push_cast
  have hhalf : (d : Rat) ≤ 2 * (n % d : Nat) ↔ 1 ≤ 2 * ((n % d : Nat) / d : Rat) := by
    rw [← mul_div_assoc, le_div_iff₀ hd, one_mul]
  rw [hhalf]
  constructor <;> intro h <;> linarith

/-- If a point of the grid rounds to the rank, then so does the neighbour on its side. -/
theorem rank_gridFloor {c : Nat} (hr : r < infinityRank) (h : (⟨c, e⟩ : Decimal).rank = r) :
    c ≤ gridFloor r e ∧ (⟨gridFloor r e, e⟩ : Decimal).rank = r ∨
      gridFloor r e + 1 ≤ c ∧ (⟨gridFloor r e + 1, e⟩ : Decimal).rank = r := by
  have hmagnitude := rankOfRat_magnitude hr
  simp only [Decimal.rank_eq] at h ⊢
  obtain hle | hlt := Nat.lt_or_ge (gridFloor r e) c |>.symm
  · refine .inl ⟨hle, Nat.le_antisymm ?_ ?_⟩
    · exact (rankOfRat_mono (Decimal.toRat_nonneg _) gridFloor_le).trans_eq hmagnitude
    · exact h.ge.trans (rankOfRat_mono (Decimal.toRat_nonneg _) (Decimal.toRat_le_toRat hle e))
  · refine .inr ⟨hlt, Nat.le_antisymm ?_ ?_⟩
    · exact (rankOfRat_mono (Decimal.toRat_nonneg _) (Decimal.toRat_le_toRat hlt e)).trans_eq h
    · exact hmagnitude.ge.trans (rankOfRat_mono (magnitude_nonneg r) lt_gridFloor_succ.le)

theorem abs_magnitude_sub_of_le {c : Nat} (h : c ≤ gridFloor r e) :
    |magnitude r - (⟨c, e⟩ : Decimal).toRat| = magnitude r - (⟨c, e⟩ : Decimal).toRat :=
  abs_of_nonneg (sub_nonneg.mpr ((Decimal.toRat_le_toRat h e).trans gridFloor_le))

theorem abs_magnitude_sub_of_gt {c : Nat} (h : gridFloor r e + 1 ≤ c) :
    |magnitude r - (⟨c, e⟩ : Decimal).toRat| = (⟨c, e⟩ : Decimal).toRat - magnitude r := by
  rw [abs_sub_comm]
  exact abs_of_nonneg
    (sub_nonneg.mpr (lt_gridFloor_succ.le.trans (Decimal.toRat_le_toRat h e)))

/-- The point found on a grid is next to the magnitude, rounds back, and no other point of the grid
that rounds back is closer. -/
structure IsRoundTrip (d : Decimal) (r : Nat) : Prop where
  rank_eq : d.rank = r
  coefficient : d.coefficient = gridFloor r d.exponent ∨
    d.coefficient = gridFloor r d.exponent + 1
  closest : ∀ c : Nat, (⟨c, d.exponent⟩ : Decimal).rank = r →
    |magnitude r - d.toRat| ≤ |magnitude r - (⟨c, d.exponent⟩ : Decimal).toRat|

theorem isRoundTrip_gridFloor (hr : r < infinityRank)
    (hrank : (⟨gridFloor r e, e⟩ : Decimal).rank = r)
    (hcloser : (⟨gridFloor r e + 1, e⟩ : Decimal).rank = r →
      magnitude r - (⟨gridFloor r e, e⟩ : Decimal).toRat ≤
        (⟨gridFloor r e + 1, e⟩ : Decimal).toRat - magnitude r) :
    IsRoundTrip ⟨gridFloor r e, e⟩ r := by
  refine ⟨hrank, .inl rfl, fun c hc => ?_⟩
  rw [abs_magnitude_sub_of_le (Nat.le_refl _)]
  obtain ⟨hle, -⟩ | ⟨hgt, habove⟩ := rank_gridFloor hr hc
  · rw [abs_magnitude_sub_of_le hle]
    linarith [Decimal.toRat_le_toRat hle e]
  · rw [abs_magnitude_sub_of_gt hgt]
    linarith [Decimal.toRat_le_toRat hgt e, hcloser habove]

theorem isRoundTrip_gridFloor_succ (hr : r < infinityRank)
    (hrank : (⟨gridFloor r e + 1, e⟩ : Decimal).rank = r)
    (hcloser : (⟨gridFloor r e, e⟩ : Decimal).rank = r →
      (⟨gridFloor r e + 1, e⟩ : Decimal).toRat - magnitude r ≤
        magnitude r - (⟨gridFloor r e, e⟩ : Decimal).toRat) :
    IsRoundTrip ⟨gridFloor r e + 1, e⟩ r := by
  refine ⟨hrank, .inr rfl, fun c hc => ?_⟩
  rw [abs_magnitude_sub_of_gt (Nat.le_refl _)]
  obtain ⟨hle, hbelow⟩ | ⟨hgt, -⟩ := rank_gridFloor hr hc
  · rw [abs_magnitude_sub_of_le hle]
    linarith [Decimal.toRat_le_toRat hle e, hcloser hbelow]
  · rw [abs_magnitude_sub_of_gt hgt]
    linarith [Decimal.toRat_le_toRat hgt e]

/-- What is found on a grid rounds back, and no point of the grid that does is closer. -/
theorem isRoundTrip_of_roundTripAt {d : Decimal} (hr : r < infinityRank)
    (h : roundTripAt r e = some d) : d.exponent = e ∧ IsRoundTrip d r := by
  rw [roundTripAt_eq] at h
  split at h
  · next hbelow =>
    obtain rfl := Option.some.inj h
    split
    · next habove =>
      exact ⟨rfl, isRoundTrip_gridFloor_succ hr habove.1 fun _ =>
        gridScale_le_iff.mp habove.2⟩
    · next habove =>
      exact ⟨rfl, isRoundTrip_gridFloor hr hbelow fun hrank =>
        (not_le.mp fun hle => habove ⟨hrank, gridScale_le_iff.mpr hle⟩).le⟩
  · next hbelow =>
    split at h
    · next habove =>
      obtain rfl := Option.some.inj h
      exact ⟨rfl, isRoundTrip_gridFloor_succ hr habove fun hrank => absurd hrank hbelow⟩
    · cases h

/-- Where nothing is found on a grid, no point of it rounds back. -/
theorem rank_ne_of_roundTripAt (hr : r < infinityRank) (h : roundTripAt r e = none) (c : Nat) :
    (⟨c, e⟩ : Decimal).rank ≠ r := by
  intro hc
  rw [roundTripAt_eq] at h
  obtain ⟨-, hbelow⟩ | ⟨-, habove⟩ := rank_gridFloor hr hc
  · rw [if_pos hbelow] at h
    cases h
  · rw [if_pos habove] at h
    split at h <;> cases h

/-- A decimal on the grid that rounds back, at whatever exponent it is written. -/
theorem rank_ne_of_toRat_eq {d : Decimal} (hr : r < infinityRank) (h : roundTripAt r e = none)
    (c : Nat) (hd : d.toRat = (⟨c, e⟩ : Decimal).toRat) : d.rank ≠ r := by
  rw [Decimal.rank_eq, hd, ← Decimal.rank_eq]
  exact rank_ne_of_roundTripAt hr h c

end

end Binary64
end NestedStyles

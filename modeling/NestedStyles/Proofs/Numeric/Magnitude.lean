import Mathlib.Algebra.Order.Field.Basic
import Mathlib.Algebra.Order.Field.Rat
import Mathlib.Tactic.FieldSimp
import Mathlib.Tactic.Linarith
import NestedStyles.Proofs.Numeric.Rounding

/-!
# Magnitudes as rationals

A finite number is a rational (`Binary64.toRat`), and a rational is rounded to a number
(`Binary64.ofRat`): to the closest one, and of two equally close ones to the even one
(`Binary64.isRounding_ofRat`). Rounding keeps the order (`Binary64.rankOfRat_mono`).
-/

namespace NestedStyles

theorem roundHalfEven_mul_mul (n d : Nat) {k : Nat} (hk : 0 < k) :
    roundHalfEven (n * k) (d * k) = roundHalfEven n d := by
  have hleft : 2 * (n % d * k) < d * k ↔ 2 * (n % d) < d := by
    rw [← Nat.mul_assoc, Nat.mul_lt_mul_right hk]
  have hright : d * k < 2 * (n % d * k) ↔ d < 2 * (n % d) := by
    rw [← Nat.mul_assoc, Nat.mul_lt_mul_right hk]
  simp only [roundHalfEven, Nat.mul_div_mul_right _ _ hk, Nat.mul_mod_mul_right, hleft, hright]

namespace Binary64

theorem nearestRank_mul_mul (n d : Nat) {k : Nat} (hk : 0 < k) :
    nearestRank (n * k) (d * k) = nearestRank n d := by
  simp only [nearestRank, Nat.mul_div_mul_right _ _ hk, Nat.mul_right_comm d k,
    roundHalfEven_mul_mul _ _ hk]

theorem nearestRank_le_infinityRank (n d : Nat) : nearestRank n d ≤ infinityRank :=
  Nat.min_le_left ..

/-! ## The rational of a rank -/

/-- The magnitude of a finite rank. -/
def magnitude (r : Nat) : Rat := unitsOfRank r / unitsPerOne

theorem unitsPerOne_pos_rat : (0 : Rat) < unitsPerOne := Nat.cast_pos.mpr unitsPerOne_pos

/-- Numerators over a denominator of their own and the common one. -/
theorem scale_pos {d : Nat} (hd : 0 < d) : (0 : Rat) < d * unitsPerOne :=
  mul_pos (Nat.cast_pos.mpr hd) unitsPerOne_pos_rat

theorem strictMono_magnitude : StrictMono magnitude := fun _ _ h =>
  div_lt_div_of_pos_right (Nat.cast_lt.mpr (strictMono_unitsOfRank h)) unitsPerOne_pos_rat

@[simp] theorem magnitude_zero : magnitude 0 = 0 := by
  rw [magnitude, unitsOfRank_of_lt leadingBit_pos, Nat.cast_zero, zero_div]

theorem magnitude_nonneg (r : Nat) : 0 ≤ magnitude r :=
  magnitude_zero ▸ strictMono_magnitude.monotone (Nat.zero_le r)

/-- The rank whose magnitude is closest to that of a rational. -/
def rankOfRat (q : Rat) : Nat := nearestRank (q.num.natAbs * unitsPerOne) q.den

theorem rankOfRat_abs (q : Rat) : rankOfRat |q| = rankOfRat q := by
  rw [rankOfRat, rankOfRat, Rat.num_abs_eq_abs_num, Rat.den_abs_eq_den, Int.natAbs_abs]

theorem rankOfRat_neg (q : Rat) : rankOfRat (-q) = rankOfRat q := by
  rw [← rankOfRat_abs, abs_neg, rankOfRat_abs]

theorem abs_eq_natAbs_div (q : Rat) : |q| = q.num.natAbs / q.den := by
  rw [← Int.cast_natCast, Int.natCast_natAbs, ← Rat.num_abs_eq_abs_num, ← Rat.den_abs_eq_den,
    Rat.num_div_den]

/-- The rank of a fraction does not depend on how that is written. -/
theorem rankOfRat_div (n : Nat) {d : Nat} (hd : 0 < d) :
    rankOfRat (n / d) = nearestRank (n * unitsPerOne) d := by
  generalize hq : (n / d : Rat) = q
  have hden : 0 < q.den := q.den_pos
  have hcross : n * q.den = q.num.natAbs * d := by
    have hnonneg : 0 ≤ q := hq ▸ div_nonneg (Nat.cast_nonneg n) (Nat.cast_nonneg d)
    have hdiv : (n / d : Rat) = q.num.natAbs / q.den := by
      rw [hq, ← abs_eq_natAbs_div, abs_of_nonneg hnonneg]
    rw [div_eq_div_iff (by positivity) (by positivity)] at hdiv
    exact_mod_cast hdiv
  calc rankOfRat q
    _ = nearestRank (q.num.natAbs * unitsPerOne * d) (q.den * d) :=
      (nearestRank_mul_mul _ _ hd).symm
    _ = nearestRank (n * unitsPerOne * q.den) (d * q.den) := by
      rw [Nat.mul_right_comm, ← hcross, Nat.mul_right_comm, Nat.mul_comm q.den]
    _ = nearestRank (n * unitsPerOne) d := nearestRank_mul_mul _ _ hden

/-! ## Rounding keeps the order -/

/-- A rational has at most a rank if it lies below the middle between that and the next one, or in
the middle while the rank is even. -/
theorem rankOfRat_le_iff {q : Rat} {r : Nat} (hq : 0 ≤ q) (hr : r < infinityRank) :
    rankOfRat q ≤ r ↔ 2 * q < magnitude r + magnitude (r + 1) ∨
      2 * q = magnitude r + magnitude (r + 1) ∧ r % 2 = 0 := by
  have hunit := unitsPerOne_pos_rat
  have hden : (0 : Rat) < q.den := Nat.cast_pos.mpr q.den_pos
  have hscale := scale_pos q.den_pos
  have hratio : q = q.num.natAbs / q.den := (abs_of_nonneg hq).symm.trans (abs_eq_natAbs_div q)
  have htwice : 2 * q = (2 * (q.num.natAbs * unitsPerOne) : Nat) / (q.den * unitsPerOne) := by
    rw [eq_div_iff hscale.ne']
    nth_rewrite 1 [hratio]
    push_cast
    field_simp
  have hsum : magnitude r + magnitude (r + 1) =
      ((unitsOfRank r + unitsOfRank (r + 1)) * q.den : Nat) / (q.den * unitsPerOne) := by
    unfold magnitude
    push_cast
    field_simp
  rw [rankOfRat, nearestRank_le_iff q.den_pos hr, htwice, hsum,
    div_lt_div_iff_of_pos_right hscale, div_left_inj' hscale.ne', Nat.cast_lt, Nat.cast_inj]

/-- A larger rational has no smaller rank. -/
theorem rankOfRat_mono {p q : Rat} (hp : 0 ≤ p) (h : p ≤ q) : rankOfRat p ≤ rankOfRat q := by
  obtain hfinite | hinfinite := Nat.lt_or_ge (rankOfRat q) infinityRank
  · rw [rankOfRat_le_iff hp hfinite]
    obtain hlt | ⟨heq, heven⟩ := (rankOfRat_le_iff (hp.trans h) hfinite).mp (Nat.le_refl _)
    · exact .inl (by linarith)
    · obtain hlt | rfl := h.lt_or_eq
      · exact .inl (by linarith)
      · exact .inr ⟨heq, heven⟩
  · exact (nearestRank_le_infinityRank ..).trans hinfinite

/-- A finite magnitude is rounded to its own rank. -/
theorem rankOfRat_magnitude {r : Nat} (h : r < infinityRank) : rankOfRat (magnitude r) = r := by
  rw [magnitude, rankOfRat_div _ unitsPerOne_pos]
  have hscaled := nearestRank_mul_mul (unitsOfRank r) 1 unitsPerOne_pos
  rw [Nat.one_mul] at hscaled
  rw [hscaled, nearestRank_unitsOfRank h]

theorem rankOfRat_zero : rankOfRat 0 = 0 :=
  magnitude_zero ▸ rankOfRat_magnitude (by decide)

/-! ## The closest number -/

theorem cast_dist (m n : Nat) : (Nat.dist m n : Rat) = |(n : Rat) - m| := by
  obtain h | h := Nat.le_total m n
  · rw [Nat.dist_eq_sub_of_le h, Nat.cast_sub h, abs_of_nonneg (sub_nonneg.mpr (Nat.cast_le.mpr h))]
  · rw [Nat.dist_eq_sub_of_le_right h, Nat.cast_sub h, abs_sub_comm,
      abs_of_nonneg (sub_nonneg.mpr (Nat.cast_le.mpr h))]

theorem abs_magnitude_sub (q : Rat) (r : Nat) : |magnitude r - (|q|)| =
    Nat.dist (q.num.natAbs * unitsPerOne) (unitsOfRank r * q.den) / (q.den * unitsPerOne) := by
  have hunit := unitsPerOne_pos_rat
  have hden : (0 : Rat) < q.den := Nat.cast_pos.mpr q.den_pos
  have hscale := scale_pos q.den_pos
  rw [eq_div_iff hscale.ne', cast_dist, ← abs_of_pos hscale, ← abs_mul, abs_eq_natAbs_div q,
    magnitude]
  refine congrArg (fun value : Rat => |value|) ?_
  push_cast
  generalize (unitsPerOne : Rat) = unit at *
  field_simp

/-- No magnitude is closer than the one that a rational is rounded to, and of two equally close it
is the even one. -/
theorem magnitude_rankOfRat_closest {q : Rat} (h : rankOfRat q < infinityRank) (r : Nat) :
    |magnitude (rankOfRat q) - (|q|)| ≤ |magnitude r - (|q|)| ∧
    (|magnitude r - (|q|)| = |magnitude (rankOfRat q) - (|q|)| → r ≠ rankOfRat q →
      rankOfRat q % 2 = 0) := by
  obtain ⟨hle, heven⟩ := nearestRank_closest q.den_pos h r
  have hscale := scale_pos q.den_pos
  rw [abs_magnitude_sub, abs_magnitude_sub, div_le_div_iff_of_pos_right hscale,
    div_left_inj' hscale.ne', Nat.cast_le, Nat.cast_inj]
  exact ⟨hle, heven⟩

/-- The value of a finite number. -/
def toRat (x : Binary64) : Rat := x.signedUnits / unitsPerOne

theorem toRat_eq (x : Binary64) :
    x.toRat = if x.negative then -magnitude x.rank else magnitude x.rank := by
  unfold toRat signedUnits magnitude units
  split <;> push_cast
  · rw [neg_div]
  · rfl

theorem abs_toRat (x : Binary64) : |x.toRat| = magnitude x.rank := by
  have hnonneg := magnitude_nonneg x.rank
  rw [toRat_eq]
  split
  · rw [abs_neg, abs_of_nonneg hnonneg]
  · exact abs_of_nonneg hnonneg

theorem toRat_neg_iff {x : Binary64} (h0 : x.rank ≠ 0) : x.toRat < 0 ↔ x.negative := by
  have hpos : 0 < magnitude x.rank :=
    magnitude_zero ▸ strictMono_magnitude (Nat.pos_of_ne_zero h0)
  rw [toRat_eq]
  cases x.negative with
  | false => simpa using hpos.le
  | true => simpa using hpos

/-- The number closest to a rational. -/
def ofRat (q : Rat) : Binary64 := ofRatio (q < 0) q.num.natAbs q.den

theorem ofRat_eq (q : Rat) : ofRat q = ofRank (decide (q < 0)) (rankOfRat q) := rfl

/-- The number is what a rational is rounded to: no finite number is closer, and if another one is
as close, then the significand of this one is even. -/
structure IsRounding (x : Binary64) (q : Rat) : Prop where
  finite : x.isFinite
  closest : ∀ y : Binary64, y.isFinite → |x.toRat - q| ≤ |y.toRat - q|
  even : ∀ y : Binary64, y.isFinite → |y.toRat - q| = |x.toRat - q| → y.toRat ≠ x.toRat →
    x.rank % 2 = 0

/-- Numbers of the sign of a rational are as far from it as the magnitudes are, and others as far as
these together. -/
theorem abs_toRat_sub (x : Binary64) (q : Rat) : |x.toRat - q| =
    if x.negative = decide (q < 0) then |magnitude x.rank - (|q|)|
    else magnitude x.rank + |q| := by
  have hnonneg := magnitude_nonneg x.rank
  rw [toRat_eq]
  by_cases hq : q < 0 <;> cases x.negative <;> simp [hq]
  · rw [abs_of_neg hq, abs_of_pos (by linarith)]
    ring
  · rw [abs_of_neg hq, ← abs_neg]
    congr 1
    ring
  · rw [abs_of_nonneg (not_lt.mp hq)]
  · rw [abs_of_nonneg (not_lt.mp hq), abs_of_nonpos (by linarith)]
    ring

/-- Up to the largest finite number, rounding gives the number closest to a rational. -/
theorem isRounding_ofRat {q : Rat} (h : rankOfRat q < infinityRank) : (ofRat q).IsRounding q := by
  have hword := Nat.lt_trans h infinityRank_lt_signBit
  have hrank : (ofRat q).rank = rankOfRat q := rank_ofRank _ hword
  have hnegative : (ofRat q).negative = decide (q < 0) := negative_ofRank _ hword
  have hclosest := magnitude_rankOfRat_closest h
  obtain ⟨hzero, hzeroEven⟩ := hclosest 0
  rw [magnitude_zero, zero_sub, abs_neg, abs_abs] at hzero hzeroEven
  have habs : |(ofRat q).toRat - q| = |magnitude (rankOfRat q) - (|q|)| := by
    rw [abs_toRat_sub, if_pos hnegative, hrank]
  refine ⟨decide_eq_true (hrank ▸ h), fun y _ => ?_, fun y _ htie hne => ?_⟩
  · rw [habs, abs_toRat_sub]
    split
    · exact (hclosest y.rank).1
    · linarith [magnitude_nonneg y.rank]
  · rw [habs, abs_toRat_sub] at htie
    rw [hrank]
    split at htie
    · next hsign =>
      refine (hclosest y.rank).2 htie fun hy => hne ?_
      rw [toRat_eq, toRat_eq, hsign, hnegative, hrank, hy]
    · -- the other sign is as close only if both magnitudes are nothing beside the rational
      obtain heq | hne := eq_or_ne (rankOfRat q) 0
      · rw [heq]
      · exact hzeroEven (by linarith [magnitude_nonneg y.rank]) (Ne.symm hne)

end Binary64
end NestedStyles

import Mathlib.Tactic.Ring
import NestedStyles.Numeric.Binary64

/-!
# Numbers and their magnitudes

A finite number is its sign and its magnitude: rounding the magnitude gives its rank back
(`Binary64.nearestRank_unitsOfRank`). So the number that holds an integer is the one that the
integer is rounded to (`Binary64.IsInt.ofInt_eq`).
-/

namespace NestedStyles

theorem roundHalfEven_mul (q : Nat) {d : Nat} (h : 0 < d) : roundHalfEven (q * d) d = q := by
  simp [roundHalfEven, Nat.mul_div_cancel q h, Nat.mul_mod_left, h]

namespace Binary64

theorem unitsPerOne_pos : 0 < unitsPerOne := by decide +kernel

theorem ofRank_rank (x : Binary64) : ofRank x.negative x.rank = x := by
  obtain ⟨bits⟩ := x
  have hlt : bits.toNat < 2 * signBit := bits.toNat_lt
  have hbits : bits.toNat % signBit + (if signBit ≤ bits.toNat then signBit else 0) =
      bits.toNat := by
    unfold signBit at hlt ⊢
    split <;> omega
  simp [ofRank, rank, negative, hbits]

/-- The logarithm of a significand of full length, scaled. -/
theorem log2_scaled {m : Nat} (hle : leadingBit ≤ m) (hlt : m < 2 * leadingBit) (k : Nat) :
    (m * Nat.pow 2 k).log2 = 52 + k := by
  have hpow : 0 < 2 ^ k := Nat.pow_pos (by decide)
  have hne : m * 2 ^ k ≠ 0 := Nat.mul_ne_zero (Nat.ne_of_gt (Nat.lt_of_lt_of_le (by decide) hle))
    (Nat.ne_of_gt hpow)
  refine (Nat.log2_eq_iff hne).mpr ⟨?_, ?_⟩
  · rw [Nat.pow_add]
    exact Nat.mul_le_mul_right _ hle
  · rw [Nat.add_right_comm, Nat.pow_add]
    exact Nat.mul_lt_mul_of_pos_right hlt hpow

/-- The magnitude of a finite rank is rounded to that rank. -/
theorem nearestRank_unitsOfRank {r : Nat} (h : r < infinityRank) :
    nearestRank (unitsOfRank r) 1 = r := by
  suffices hscaled : ((unitsOfRank r).log2 - 52) * leadingBit +
      roundHalfEven (unitsOfRank r) (Nat.pow 2 ((unitsOfRank r).log2 - 52)) = r by
    simp only [nearestRank, Nat.div_one, Nat.one_mul, hscaled]
    exact Nat.min_eq_right (Nat.le_of_lt h)
  by_cases hr : r < leadingBit
  · have hlog : r.log2 - 52 = 0 := by
      by_cases hzero : r = 0
      · rw [hzero]
        rfl
      · have := (Nat.log2_lt hzero).mpr (show r < 2 ^ 52 from hr)
        omega
    have hround := roundHalfEven_mul r Nat.one_pos
    rw [Nat.mul_one] at hround
    rw [unitsOfRank, if_pos hr, hlog, Nat.zero_mul, Nat.zero_add]
    exact hround
  · have hmod : r % leadingBit < leadingBit := Nat.mod_lt _ (by decide)
    have hdiv := Nat.div_add_mod r leadingBit
    obtain ⟨k, hk⟩ := Nat.exists_eq_add_of_le'
      (Nat.div_pos (Nat.le_of_not_lt hr) (by decide : 0 < leadingBit))
    have hpow : 0 < Nat.pow 2 k := Nat.pow_pos (by decide)
    rw [hk] at hdiv
    rw [unitsOfRank, if_neg hr, log2_scaled (Nat.le_add_right ..) (by omega),
      Nat.add_sub_cancel_left, hk, Nat.add_sub_cancel, roundHalfEven_mul _ hpow]
    calc k * leadingBit + (leadingBit + r % leadingBit)
      _ = leadingBit * (k + 1) + r % leadingBit := by ring
      _ = r := hdiv

/-! ## Integers -/

/-- The number is exactly the integer. Zero is the positive one. -/
structure IsInt (x : Binary64) (i : Int) : Prop where
  finite : x.isFinite
  negative : x.negative = decide (i < 0)
  units : x.units = i.natAbs * unitsPerOne

/-- An integer that is a double is converted to that one. -/
theorem IsInt.ofInt_eq {x : Binary64} {i : Int} (h : x.IsInt i) : ofInt i = x := by
  have hrank : x.rank < infinityRank := of_decide_eq_true h.finite
  calc ofInt i
    _ = ofRank (decide (i < 0)) (nearestRank (i.natAbs * unitsPerOne) 1) := rfl
    _ = ofRank x.negative (nearestRank (unitsOfRank x.rank) 1) := by
      rw [← h.negative, ← h.units, Binary64.units]
    _ = x := by rw [nearestRank_unitsOfRank hrank, ofRank_rank]

end Binary64
end NestedStyles

import Mathlib.Data.Nat.Dist
import Mathlib.Order.Monotone.Basic
import NestedStyles.Proofs.Numeric.Rank

/-!
# Rounding

Rounding takes the closest magnitude, and of two equally close ones that with the even significand
(`Binary64.nearestRank_closest`). So the number that an integer becomes is closer to it than any
other number, or as close and even (`Binary64.ofInt_isNearest`).
-/

namespace NestedStyles

/-! ## Whole multiples -/

theorem roundHalfEven_cases (n d : Nat) :
    (roundHalfEven n d = n / d ∧ 2 * (n % d) ≤ d) ∨
      (roundHalfEven n d = n / d + 1 ∧ d ≤ 2 * (n % d)) := by
  unfold roundHalfEven
  grind

theorem mul_add_le_of_lt {m q : Nat} (d : Nat) (h : m < q) : m * d + d ≤ q * d :=
  Nat.succ_mul m d ▸ Nat.mul_le_mul_right d h

/-- No multiple is closer than the rounded one. -/
theorem dist_roundHalfEven_le {n d : Nat} (hd : 0 < d) (m : Nat) :
    Nat.dist n (roundHalfEven n d * d) ≤ Nat.dist n (m * d) := by
  have hdiv : n / d * d + n % d = n := Nat.div_add_mod' n d
  have hmod : n % d < d := Nat.mod_lt n hd
  have hside : m * d ≤ n / d * d ∨ n / d * d + d ≤ m * d :=
    (Nat.lt_or_ge (n / d) m).symm.imp (Nat.mul_le_mul_right d) (mul_add_le_of_lt d)
  unfold Nat.dist
  obtain ⟨hround, hhalf⟩ | ⟨hround, hhalf⟩ := roundHalfEven_cases n d
  · rw [hround]
    omega
  · rw [hround, Nat.succ_mul]
    omega

/-- Where another multiple is equally close, the rounded one is even. -/
theorem roundHalfEven_even_of_tie {n d m : Nat} (hd : 0 < d) (hm : m ≠ roundHalfEven n d)
    (h : Nat.dist n (m * d) = Nat.dist n (roundHalfEven n d * d)) :
    roundHalfEven n d % 2 = 0 := by
  have hdiv : n / d * d + n % d = n := Nat.div_add_mod' n d
  have hmod : n % d < d := Nat.mod_lt n hd
  have hside := (Nat.lt_or_gt_of_ne hm).imp (mul_add_le_of_lt d) (mul_add_le_of_lt d)
  by_cases hhalf : 2 * (n % d) = d
  · unfold roundHalfEven
    grind
  · -- only half of the way between two multiples both are equally close
    unfold Nat.dist at h
    obtain ⟨hround, hle⟩ | ⟨hround, hle⟩ := roundHalfEven_cases n d
    · rw [hround] at h hside
      omega
    · rw [hround, Nat.succ_mul] at h hside
      omega

namespace Binary64

/-! ## Magnitudes -/

theorem leadingBit_pos : 0 < leadingBit := by decide

theorem unitsOfRank_of_lt {r : Nat} (h : r < leadingBit) : unitsOfRank r = r := if_pos h

/-- The magnitude of a significand of full length, scaled. -/
theorem unitsOfRank_significand {m : Nat} (scale : Nat) (hle : leadingBit ≤ m)
    (hlt : m < 2 * leadingBit) : unitsOfRank (scale * leadingBit + m) = m * 2 ^ scale := by
  obtain ⟨fraction, rfl⟩ := Nat.exists_eq_add_of_le hle
  have hfraction : fraction < leadingBit := by omega
  have hrank : scale * leadingBit + (leadingBit + fraction) =
      leadingBit * (scale + 1) + fraction := by ring
  have hge : ¬ leadingBit * (scale + 1) + fraction < leadingBit :=
    Nat.not_lt.mpr (Nat.le_add_right_of_le (Nat.le_mul_of_pos_right _ (Nat.succ_pos scale)))
  rw [hrank, unitsOfRank, if_neg hge, Nat.mul_add_mod, Nat.mod_eq_of_lt hfraction,
    Nat.mul_add_div leadingBit_pos, Nat.div_eq_of_lt hfraction, Nat.add_zero, Nat.add_sub_cancel]
  rfl

theorem exists_significand {r : Nat} (h : leadingBit ≤ r) :
    ∃ scale m, leadingBit ≤ m ∧ m < 2 * leadingBit ∧ r = scale * leadingBit + m := by
  obtain ⟨scale, hscale⟩ := Nat.exists_eq_add_of_le' (Nat.div_pos h leadingBit_pos)
  have hmod := Nat.mod_lt r leadingBit_pos
  refine ⟨scale, leadingBit + r % leadingBit, Nat.le_add_right .., by omega, ?_⟩
  calc r
    _ = leadingBit * (scale + 1) + r % leadingBit := by rw [← hscale, Nat.div_add_mod]
    _ = scale * leadingBit + (leadingBit + r % leadingBit) := by ring

/-- One more than the longest significand is the first one of the next scale. -/
theorem unitsOfRank_scaled {scale m : Nat} (hle : m ≤ 2 * leadingBit)
    (h : leadingBit ≤ m ∨ scale = 0) : unitsOfRank (scale * leadingBit + m) = m * 2 ^ scale := by
  by_cases hm : leadingBit ≤ m
  · obtain hlt | rfl := Nat.lt_or_eq_of_le hle
    · exact unitsOfRank_significand scale hm hlt
    · have hnext := unitsOfRank_significand (scale + 1) (Nat.le_refl leadingBit) (by decide)
      rw [show scale * leadingBit + 2 * leadingBit = (scale + 1) * leadingBit + leadingBit by ring,
        hnext]
      ring
  · obtain rfl := h.resolve_left hm
    rw [Nat.zero_mul, Nat.zero_add, unitsOfRank_of_lt (Nat.lt_of_not_le hm), pow_zero, Nat.mul_one]

/-- Magnitudes ascend with their ranks. -/
theorem strictMono_unitsOfRank : StrictMono unitsOfRank := by
  refine strictMono_nat_of_lt_succ fun r => ?_
  obtain hlt | hge := Nat.lt_or_ge r leadingBit
  · have hsucc := unitsOfRank_scaled (Nat.le_trans hlt (by decide)) (.inr rfl)
    rw [Nat.zero_mul, Nat.zero_add, pow_zero, Nat.mul_one] at hsucc
    rw [unitsOfRank_of_lt hlt, hsucc]
    exact Nat.lt_succ_self r
  · obtain ⟨scale, m, hm, hlt, rfl⟩ := exists_significand hge
    rw [Nat.add_assoc, unitsOfRank_scaled (Nat.le_of_lt hlt) (.inl hm),
      unitsOfRank_scaled hlt (.inl (Nat.le_succ_of_le hm))]
    exact Nat.mul_lt_mul_of_pos_right (Nat.lt_succ_self m) (Nat.two_pow_pos scale)

/-- From a scale on all magnitudes are multiples of its unit. -/
theorem exists_unitsOfRank_eq_mul {scale r : Nat} (h : (scale + 1) * leadingBit ≤ r) :
    ∃ m, unitsOfRank r = m * 2 ^ scale := by
  obtain ⟨k, m, hm, hlt, rfl⟩ := exists_significand
    (Nat.le_trans (Nat.le_mul_of_pos_left _ (Nat.succ_pos scale)) h)
  have hscale : scale ≤ k := by
    by_contra hk
    have hmul := Nat.mul_le_mul_right leadingBit (Nat.lt_of_not_le hk)
    rw [Nat.succ_mul] at h hmul
    omega
  obtain ⟨j, rfl⟩ := Nat.exists_eq_add_of_le hscale
  refine ⟨m * 2 ^ j, ?_⟩
  rw [unitsOfRank_significand _ hm hlt]
  ring

theorem unitsOfRank_eq_mul_or_lt (scale r : Nat) : (∃ m, unitsOfRank r = m * 2 ^ scale) ∨
    scale ≠ 0 ∧ unitsOfRank r < leadingBit * 2 ^ scale := by
  obtain rfl | hscale := eq_or_ne scale 0
  · exact .inl ⟨unitsOfRank r, (Nat.mul_one _).symm⟩
  · obtain hlt | hge := Nat.lt_or_ge r ((scale + 1) * leadingBit)
    · refine .inr ⟨hscale, ?_⟩
      rw [← unitsOfRank_significand scale (Nat.le_refl _) (by decide)]
      exact strictMono_unitsOfRank (Nat.succ_mul scale leadingBit ▸ hlt)
    · exact .inl (exists_unitsOfRank_eq_mul hge)

/-! ## The closest magnitude -/

section
variable {n d : Nat}

/-- The closest rank is that of a significand which is rounded to a whole number, at a scale at
which it has full length. -/
theorem exists_nearestRank (n d : Nat) : ∃ scale m,
    nearestRank n d = min infinityRank (scale * leadingBit + m) ∧
    m = roundHalfEven n (d * 2 ^ scale) ∧ m ≤ 2 * leadingBit ∧
    (scale = 0 ∨ leadingBit ≤ m ∧ leadingBit * 2 ^ scale ≤ n / d) := by
  generalize hscale : (n / d).log2 - 52 = scale
  have hquotient : n / (d * 2 ^ scale) = n / d / 2 ^ scale := (Nat.div_div_eq_div_mul ..).symm
  have hround := roundHalfEven_cases n (d * 2 ^ scale)
  refine ⟨scale, _, by rw [← hscale]; rfl, rfl, ?_, ?_⟩
  · have hlt : n / d / 2 ^ scale < 2 * leadingBit := by
      refine (Nat.div_lt_iff_lt_mul (Nat.two_pow_pos scale)).mpr ?_
      calc n / d
        _ < 2 ^ ((n / d).log2 + 1) := Nat.lt_log2_self
        _ ≤ 2 ^ (53 + scale) := Nat.pow_le_pow_right (by decide) (by omega)
        _ = 2 * leadingBit * 2 ^ scale := Nat.pow_add ..
    omega
  · obtain hzero | hpos := Nat.eq_zero_or_pos scale
    · exact .inl hzero
    · have hlog : (n / d).log2 = 52 + scale := by omega
      have hne : n / d ≠ 0 := fun hzero => by rw [hzero, Nat.log2_zero] at hlog; omega
      have hle : leadingBit * 2 ^ scale ≤ n / d := by
        calc leadingBit * 2 ^ scale
          _ = 2 ^ (n / d).log2 := by rw [hlog, Nat.pow_add]; rfl
          _ ≤ n / d := Nat.log2_self_le hne
      have hsignificand := (Nat.le_div_iff_mul_le (Nat.two_pow_pos scale)).mpr hle
      exact .inr ⟨by omega, hle⟩

/-- What is smaller than half of the first magnitude that is too large has a finite rank. -/
theorem nearestRank_lt (h : n / d < 2 ^ 2097) : nearestRank n d < infinityRank := by
  obtain ⟨scale, m, hrank, -, hle, hscale⟩ := exists_nearestRank n d
  have hbound : scale ≤ 2044 := by
    obtain rfl | ⟨-, hdiv⟩ := hscale
    · exact Nat.zero_le _
    · have hpow : 2 ^ (52 + scale) < 2 ^ 2097 := by
        rw [Nat.pow_add]
        exact Nat.lt_of_le_of_lt hdiv h
      have := (Nat.pow_lt_pow_iff_right (by decide : 1 < 2)).mp hpow
      omega
  have hmul := Nat.mul_le_mul_right leadingBit hbound
  have hpos := leadingBit_pos
  rw [hrank]
  unfold infinityRank
  omega

/-- The closest rank, with no bound where the finite ones end: no magnitude is closer, and if
another one is as close, then it is even. -/
theorem exists_closest (hd : 0 < d) : ∃ closest, nearestRank n d = min infinityRank closest ∧
    ∀ r, Nat.dist n (unitsOfRank closest * d) ≤ Nat.dist n (unitsOfRank r * d) ∧
      (Nat.dist n (unitsOfRank r * d) = Nat.dist n (unitsOfRank closest * d) →
        r ≠ closest → closest % 2 = 0) := by
  obtain ⟨scale, m, hrank, hm, hle, hscale⟩ := exists_nearestRank n d
  refine ⟨scale * leadingBit + m, hrank, fun r => ?_⟩
  have hunit : 0 < d * 2 ^ scale := Nat.mul_pos hd (Nat.two_pow_pos scale)
  have hunits : unitsOfRank (scale * leadingBit + m) = m * 2 ^ scale :=
    unitsOfRank_scaled hle (hscale.symm.imp And.left id)
  have hmul (k : Nat) : k * 2 ^ scale * d = k * (d * 2 ^ scale) := by ring
  obtain ⟨k, hk⟩ | ⟨hne, hlt⟩ := unitsOfRank_eq_mul_or_lt scale r
  · rw [hunits, hk, hmul, hmul, hm]
    refine ⟨dist_roundHalfEven_le hunit k, fun htie hr => ?_⟩
    have hkm : k ≠ roundHalfEven n (d * 2 ^ scale) := by
      rintro rfl
      exact hr (strictMono_unitsOfRank.injective (hk.trans (hm ▸ hunits.symm)))
    have heven := roundHalfEven_even_of_tie hunit hkm htie
    rw [Nat.add_mod, heven, Nat.mul_mod]
    simp [leadingBit]
  · -- below the scale every magnitude is further away than the first one of the scale
    obtain ⟨-, hdiv⟩ := hscale.resolve_left hne
    have hn : leadingBit * (d * 2 ^ scale) ≤ n :=
      hmul leadingBit ▸ (Nat.le_div_iff_mul_le hd).mp hdiv
    have hcloser : Nat.dist n _ ≤ _ := dist_roundHalfEven_le hunit leadingBit
    have hfar : unitsOfRank r * d < leadingBit * (d * 2 ^ scale) := by
      rw [← hmul]
      exact Nat.mul_lt_mul_of_pos_right hlt hd
    rw [hunits, hmul, hm]
    unfold Nat.dist at hcloser ⊢
    omega

/-- No magnitude is closer than the one of the closest rank; if another one is as close, then the
closest rank is even. -/
theorem nearestRank_closest (hd : 0 < d) (h : nearestRank n d < infinityRank) (r : Nat) :
    Nat.dist n (unitsOfRank (nearestRank n d) * d) ≤ Nat.dist n (unitsOfRank r * d) ∧
    (Nat.dist n (unitsOfRank r * d) = Nat.dist n (unitsOfRank (nearestRank n d) * d) →
      r ≠ nearestRank n d → nearestRank n d % 2 = 0) := by
  obtain ⟨closest, hrank, hclosest⟩ := exists_closest (n := n) hd
  obtain rfl : nearestRank n d = closest := by omega
  exact hclosest r

/-- A ratio has a rank up to `r` if it lies below the middle between the magnitudes of `r` and of
the next rank, or in the middle with `r` even. -/
theorem nearestRank_le_iff {r : Nat} (hd : 0 < d) (hr : r < infinityRank) :
    nearestRank n d ≤ r ↔
      2 * n < (unitsOfRank r + unitsOfRank (r + 1)) * d ∨
        2 * n = (unitsOfRank r + unitsOfRank (r + 1)) * d ∧ r % 2 = 0 := by
  obtain ⟨closest, hrank, hclosest⟩ := exists_closest (n := n) hd
  have hmono {i j : Nat} (h : i < j) : unitsOfRank i * d < unitsOfRank j * d :=
    Nat.mul_lt_mul_of_pos_right (strictMono_unitsOfRank h) hd
  have hnext : unitsOfRank r * d < unitsOfRank (r + 1) * d := hmono (Nat.lt_succ_self r)
  have hle : nearestRank n d ≤ r ↔ closest ≤ r := by omega
  rw [hle, Nat.add_mul]
  unfold Nat.dist at hclosest
  obtain hlt | rfl | hgt := Nat.lt_trichotomy closest r
  · obtain ⟨habove, -⟩ := hclosest (r + 1)
    have := hmono hlt
    omega
  · obtain ⟨habove, hevenAbove⟩ := hclosest (closest + 1)
    omega
  · obtain ⟨hbelow, hevenBelow⟩ := hclosest r
    obtain rfl | hlt : closest = r + 1 ∨ r + 1 < closest := by omega
    · omega
    · have := hmono hlt
      omega

end

/-! ## Integers -/

/-- The value of a finite number, in units. -/
def signedUnits (x : Binary64) : Int := if x.negative then -(x.units : Int) else x.units

/-- The number is what an integer is rounded to: no finite number is closer, and if another one is
as close, then the significand of this one is even. -/
structure IsNearest (x : Binary64) (i : Int) : Prop where
  finite : x.isFinite
  closest : ∀ y : Binary64, y.isFinite →
    (x.signedUnits - i * unitsPerOne).natAbs ≤ (y.signedUnits - i * unitsPerOne).natAbs
  even : ∀ y : Binary64, y.isFinite →
    (y.signedUnits - i * unitsPerOne).natAbs = (x.signedUnits - i * unitsPerOne).natAbs →
    y.signedUnits ≠ x.signedUnits → x.rank % 2 = 0

theorem toNat_bits_ofRank {r : Nat} (negative : Bool) (h : r < signBit) :
    (ofRank negative r).bits.toNat = r + if negative then signBit else 0 := by
  refine UInt64.toNat_ofNat_of_lt' ?_
  unfold signBit at h ⊢
  unfold UInt64.size
  split <;> omega

theorem rank_ofRank {r : Nat} (negative : Bool) (h : r < signBit) :
    (ofRank negative r).rank = r := by
  rw [rank, toNat_bits_ofRank negative h]
  unfold signBit at h ⊢
  split <;> omega

theorem negative_ofRank {r : Nat} (negative : Bool) (h : r < signBit) :
    (ofRank negative r).negative = negative := by
  rw [Binary64.negative, toNat_bits_ofRank negative h]
  cases negative <;> simp [h]

theorem infinityRank_lt_signBit : infinityRank < signBit := by decide +kernel

/-- Numbers of one sign are as far apart as their magnitudes, and others as far as these
together. -/
theorem natAbs_signedUnits_sub {y : Binary64} {i : Int} {n : Nat}
    (hn : n = i.natAbs * unitsPerOne) :
    (y.signedUnits - i * unitsPerOne).natAbs =
      if y.negative = decide (i < 0) then Nat.dist n y.units else n + y.units := by
  have hi : i * unitsPerOne = if i < 0 then -(n : Int) else n := by
    rw [hn]
    split
    · rw [Nat.cast_mul, Int.ofNat_natAbs_of_nonpos (by omega), Int.neg_mul, Int.neg_neg]
    · rw [Nat.cast_mul, Int.natAbs_of_nonneg (by omega)]
  rw [hi, signedUnits]
  unfold Nat.dist
  by_cases hneg : i < 0 <;> cases y.negative <;> simp [hneg] <;> omega

theorem dist_unitsOfRank_zero (n : Nat) : Nat.dist n (unitsOfRank 0 * 1) = n := by
  simp [unitsOfRank_of_lt leadingBit_pos, Nat.dist]

theorem nearestRank_natural_lt {n : Nat} (h : n < 2 ^ 1023) :
    nearestRank (n * unitsPerOne) 1 < infinityRank := by
  have hpow : 2 ^ 2097 = 2 ^ 1023 * unitsPerOne := by decide +kernel
  refine nearestRank_lt ?_
  rw [Nat.div_one, hpow]
  exact Nat.mul_lt_mul_of_pos_right h unitsPerOne_pos

/-- An integer becomes the closest number, and of two equally close ones the even one. -/
theorem ofInt_isNearest {i : Int} (h : i.natAbs < 2 ^ 1023) : (ofInt i).IsNearest i := by
  generalize hn : i.natAbs * unitsPerOne = n
  generalize hr : nearestRank n 1 = r
  have hofInt : ofInt i = ofRank (decide (i < 0)) r := by
    rw [← hr, ← hn]
    rfl
  have hlt : nearestRank n 1 < infinityRank := hn ▸ nearestRank_natural_lt h
  have hclosest := nearestRank_closest Nat.one_pos hlt
  rw [hr] at hlt hclosest
  have hrank : (ofInt i).rank = r :=
    hofInt ▸ rank_ofRank _ (Nat.lt_trans hlt infinityRank_lt_signBit)
  have hnegative : (ofInt i).negative = decide (i < 0) :=
    hofInt ▸ negative_ofRank _ (Nat.lt_trans hlt infinityRank_lt_signBit)
  have hunits : (ofInt i).units = unitsOfRank r := congrArg unitsOfRank hrank
  have hzero := hclosest 0
  rw [dist_unitsOfRank_zero, Nat.mul_one] at hzero
  refine ⟨decide_eq_true (hrank ▸ hlt), fun y _ => ?_, fun y _ htie hne => ?_⟩
  · obtain ⟨hle, -⟩ := hclosest y.rank
    rw [natAbs_signedUnits_sub hn.symm, natAbs_signedUnits_sub hn.symm, if_pos hnegative, hunits]
    split
    · simpa only [Nat.mul_one, units] using hle
    · omega
  · obtain ⟨-, heven⟩ := hclosest y.rank
    rw [natAbs_signedUnits_sub hn.symm, natAbs_signedUnits_sub hn.symm, if_pos hnegative,
      hunits] at htie
    rw [hrank]
    split at htie
    · next hsign =>
      refine heven (by simpa only [Nat.mul_one, units] using htie) fun hy => hne ?_
      rw [signedUnits, signedUnits, hsign, hnegative, hunits, units, hy]
    · obtain rfl | hr0 := eq_or_ne r 0
      · rfl
      · exact hzero.2 (by omega) (Ne.symm hr0)

end Binary64

end NestedStyles

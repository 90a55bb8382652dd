import NestedStyles.Proofs.Numeric.Grid
import NestedStyles.Proofs.Numeric.Numeral

/-!
# Shortest decimals

`Binary64.shortest` is what it says (`Binary64.isShortest_shortest`): it rounds back to the rank, no
decimal that does has fewer digits, and of those with as many digits none is closer. Seventeen
digits are enough, since the grid of seventeen digits is finer than the magnitudes
(`Binary64.exists_roundTripAt`).
-/

namespace NestedStyles

/-- What is found is found at the first place where there is something. -/
theorem exists_first_of_findSome? {α : Type*} {f : Nat → Option α} {n : Nat} {a : α}
    (h : (List.range n).findSome? f = some a) : ∃ j < n, f j = some a ∧ ∀ i < j, f i = none := by
  obtain ⟨before, j, behind, hrange, hj, hnone⟩ := List.findSome?_eq_some_iff.mp h
  rw [List.range_eq_range', List.range'_eq_append_iff] at hrange
  obtain ⟨k, hk, rfl, hbehind⟩ := hrange
  obtain ⟨rfl, hpos, -⟩ := List.range'_eq_cons_iff.mp hbehind.symm
  refine ⟨_, ?_, hj, fun i hi => hnone i ?_⟩
  · omega
  · rw [List.mem_range'_1]
    omega

/-- A power of ten has one digit, however large it is. -/
theorem Decimal.length_digits_le {d : Decimal} {k : Nat} (hk : 0 < k)
    (h : d.coefficient ≤ 10 ^ k) : d.digits.length ≤ k := by
  obtain ⟨zeros, hzeros⟩ := d.toDigits_coefficient
  have hlength : (Nat.toDigits 10 d.coefficient).length = d.digits.length + zeros := by
    rw [hzeros, List.length_append, List.length_replicate]
  obtain hlt | heq := Nat.lt_or_eq_of_le h
  · have := (Nat.length_toDigits_le_iff (by decide) hk).mpr hlt
    omega
  · have hnext := (Nat.length_toDigits_le_iff (by decide) k.succ_pos).mpr
      (heq.trans_lt (Nat.pow_lt_pow_succ (by decide)))
    have hvalue := coefficient_eq hzeros
    have hne : d.coefficient ≠ 0 := heq.trans_ne (Nat.pow_pos (by decide)).ne'
    -- less than `k` zeros would leave a multiple of ten
    have hle : k ≤ zeros := by
      by_contra hlt
      obtain ⟨j, rfl⟩ := Nat.exists_eq_add_of_lt (not_le.mp hlt)
      refine (significant_digits hne).not_ten_dvd ⟨10 ^ j, ?_⟩
      rw [heq, show zeros + j + 1 = (j + 1) + zeros by omega, Nat.pow_add 10 (j + 1)] at hvalue
      rw [← Nat.eq_of_mul_eq_mul_right (Nat.pow_pos (by decide)) hvalue, Nat.pow_succ']
    omega

namespace Binary64

/-! ## The leading digit -/

/-- The leading digit of a magnitude stands where `leadingExponent` says. -/
theorem leadingExponent_bounds {u : Nat} (hu : 0 < u) :
    (10 : Rat) ^ leadingExponent u ≤ u / unitsPerOne ∧
      u / unitsPerOne < (10 : Rat) ^ (leadingExponent u + 1) := by
  have hunit := unitsPerOne_pos_rat
  have hunitNat := unitsPerOne_pos
  unfold leadingExponent
  generalize unitsPerOne = one at *
  split
  · next hlt =>
    -- the reciprocal, cut to a natural, has as many digits as there are zeros in front
    obtain ⟨k, hk, hlow, hhigh⟩ := exists_length_toDigits
      (Nat.div_pos (Nat.le_sub_one_of_lt hlt) hu).ne'
    rw [Nat.le_div_iff_mul_le hu] at hlow
    rw [Nat.div_lt_iff_lt_mul hu] at hhigh
    have hle : one ≤ u * 10 ^ (k + 1) := by
      rw [Nat.mul_comm]
      omega
    have hlt : u * 10 ^ k < one := by
      rw [Nat.mul_comm]
      omega
    have hu' : (0 : Rat) < u := Nat.cast_pos.mpr hu
    rw [hk, show -((k + 1 : Nat) : Int) + 1 = -(k : Int) by push_cast; ring, zpow_neg, zpow_neg,
      zpow_natCast, zpow_natCast]
    constructor
    · rw [inv_le_iff_one_le_mul₀ (by positivity), div_mul_eq_mul_div, le_div_iff₀ hunit, one_mul]
      exact_mod_cast hle
    · rw [lt_inv_comm₀ (by positivity) (by positivity), inv_div, lt_div_iff₀ hu', mul_comm]
      exact_mod_cast hlt
  · next hge =>
    obtain ⟨k, hk, hlow, hhigh⟩ := exists_length_toDigits
      (Nat.div_pos (Nat.le_of_not_lt hge) hunitNat).ne'
    rw [Nat.le_div_iff_mul_le hunitNat] at hlow
    rw [Nat.div_lt_iff_lt_mul hunitNat] at hhigh
    rw [hk, show ((k + 1 : Nat) : Int) - 1 = k by push_cast; ring, ← Nat.cast_succ, zpow_natCast,
      zpow_natCast]
    constructor
    · rw [le_div_iff₀ hunit]
      exact_mod_cast hlow
    · rw [div_lt_iff₀ hunit]
      exact_mod_cast hhigh

/-! ## Seventeen digits -/

/-- The next magnitude is one unit of the last place away, and the one before as far, or half as far
where the unit changes. -/
theorem exists_gap {r : Nat} (h : 0 < r) : ∃ scale m, m < 2 * leadingBit ∧
    unitsOfRank r = m * 2 ^ scale ∧ unitsOfRank (r + 1) = unitsOfRank r + 2 ^ scale ∧
    (unitsOfRank (r - 1) + 2 ^ scale = unitsOfRank r ∨
      m = leadingBit ∧ 2 * unitsOfRank (r - 1) + 2 ^ scale = 2 * unitsOfRank r) := by
  obtain ⟨scale, m, hlt, hm, rfl⟩ : ∃ scale m, m < 2 * leadingBit ∧
      (leadingBit ≤ m ∨ scale = 0) ∧ r = scale * leadingBit + m := by
    obtain hsmall | hlarge := Nat.lt_or_ge r leadingBit
    · exact ⟨0, r, by omega, .inr rfl, by omega⟩
    · obtain ⟨scale, m, hle, hlt, heq⟩ := exists_significand hlarge
      exact ⟨scale, m, hlt, .inl hle, heq⟩
  have hunits := unitsOfRank_scaled hlt.le hm
  refine ⟨scale, m, hlt, hunits, ?_, ?_⟩
  · rw [Nat.add_assoc, unitsOfRank_scaled hlt (hm.imp_left Nat.le_succ_of_le), hunits,
      Nat.succ_mul]
  · have hpos := leadingBit_pos
    by_cases hfirst : leadingBit < m ∨ scale = 0
    · have hm0 : m ≠ 0 := by
        rintro rfl
        obtain hlarge | rfl := hfirst <;> omega
      obtain ⟨m, rfl⟩ := Nat.exists_eq_succ_of_ne_zero hm0
      refine .inl ?_
      rw [hunits, Nat.succ_eq_add_one, ← Nat.add_assoc, Nat.add_sub_cancel,
        unitsOfRank_scaled (by omega) (hfirst.imp_left Nat.le_of_lt_succ)]
      ring
    · obtain rfl : m = leadingBit := by omega
      obtain ⟨scale, rfl⟩ := Nat.exists_eq_succ_of_ne_zero fun hscale => hfirst (.inr hscale)
      have hbefore : (scale + 1) * leadingBit + leadingBit - 1 =
          scale * leadingBit + (2 * leadingBit - 1) := by
        rw [Nat.succ_mul]
        omega
      refine .inr ⟨rfl, ?_⟩
      rw [hunits, Nat.succ_eq_add_one, hbefore, unitsOfRank_scaled (by omega) (.inl (by omega))]
      unfold leadingBit
      ring

theorem exists_magnitude_gap {r : Nat} (h : 0 < r) : ∃ (m : Nat) (gap : Rat), 0 < gap ∧
    m < 2 * leadingBit ∧ magnitude r = m * gap ∧ magnitude (r + 1) = magnitude r + gap ∧
    (magnitude (r - 1) = magnitude r - gap ∨
      m = leadingBit ∧ magnitude (r - 1) = magnitude r - gap / 2) := by
  obtain ⟨scale, m, hlt, hunits, hnext, hbefore⟩ := exists_gap h
  have hunit := unitsPerOne_pos_rat
  refine ⟨m, 2 ^ scale / unitsPerOne, div_pos (by positivity) hunit, hlt, ?_, ?_, ?_⟩
  · rw [magnitude, hunits]
    push_cast
    ring
  · rw [magnitude, hnext, magnitude]
    push_cast
    ring
  · refine hbefore.imp (fun heq => ?_) (And.imp_right fun heq => ?_)
    · rw [magnitude, magnitude, ← heq]
      push_cast
      ring
    · have hcast : (2 * unitsOfRank (r - 1) + 2 ^ scale : Rat) = 2 * unitsOfRank r := by
        exact_mod_cast heq
      have hsolved : (unitsOfRank (r - 1) : Rat) = unitsOfRank r - 2 ^ scale / 2 := by linarith
      rw [magnitude, magnitude, hsolved]
      ring

theorem shortest_eq (r : Nat) : shortest r = ((List.range 17).findSome? fun n : Nat =>
    roundTripAt r (leadingExponent (unitsOfRank r) - n)).getD (exactDecimal (unitsOfRank r)) := rfl

section
variable {r : Nat} (h0 : 0 < r) (hr : r < infinityRank)
include h0

theorem leading_bounds :
    (10 : Rat) ^ leadingExponent (unitsOfRank r) ≤ magnitude r ∧
      magnitude r < (10 : Rat) ^ (leadingExponent (unitsOfRank r) + 1) := by
  have hpos := strictMono_unitsOfRank h0
  rw [unitsOfRank_of_lt leadingBit_pos] at hpos
  exact leadingExponent_bounds hpos

include hr

/-- If no point of a grid rounds back, then the two next to the magnitude lie behind the middles
between it and its neighbours. -/
theorem two_magnitudes_le {e : Int} (hnone : roundTripAt r e = none) :
    magnitude (r + 1) - magnitude (r - 1) ≤ 2 * 10 ^ e := by
  have hmagnitude := rankOfRat_magnitude hr
  have hbelow := rank_ne_of_roundTripAt hr hnone (gridFloor r e)
  have habove := rank_ne_of_roundTripAt hr hnone (gridFloor r e + 1)
  rw [Decimal.rank_eq] at hbelow habove
  have hbefore : 2 * (⟨gridFloor r e, e⟩ : Decimal).toRat ≤ magnitude (r - 1) + magnitude r := by
    have hle := rankOfRat_mono (Decimal.toRat_nonneg _) (gridFloor_le (r := r) (e := e))
    have hrank : rankOfRat (⟨gridFloor r e, e⟩ : Decimal).toRat ≤ r - 1 := by omega
    rw [rankOfRat_le_iff (Decimal.toRat_nonneg _) (by omega), Nat.sub_add_cancel h0] at hrank
    exact hrank.elim le_of_lt fun heq => heq.1.le
  have hafter : magnitude r + magnitude (r + 1) ≤
      2 * (⟨gridFloor r e + 1, e⟩ : Decimal).toRat := by
    have hge := rankOfRat_mono (magnitude_nonneg r) (lt_gridFloor_succ (r := r) (e := e)).le
    by_contra hlt
    have hrank := (rankOfRat_le_iff (Decimal.toRat_nonneg _) hr).mpr (.inl (not_le.mp hlt))
    omega
  have hstep : (⟨gridFloor r e + 1, e⟩ : Decimal).toRat =
      (⟨gridFloor r e, e⟩ : Decimal).toRat + 10 ^ e := by
    rw [Decimal.toRat, Decimal.toRat, Nat.cast_succ, add_mul, one_mul]
  linarith

/-- Seventeen digits are enough: their grid is finer than the magnitudes. -/
theorem exists_roundTripAt :
    roundTripAt r (leadingExponent (unitsOfRank r) - (16 : Nat)) ≠ none := by
  intro hnone
  have hfar := two_magnitudes_le h0 hr hnone
  obtain ⟨hlead, -⟩ := leading_bounds h0
  generalize leadingExponent (unitsOfRank r) = lead at *
  have hscale : 10 ^ 16 * (10 : Rat) ^ (lead - (16 : Nat)) = 10 ^ lead := by
    have hpower := natCast_ten_pow_mul 16 (lead - (16 : Nat))
    rw [add_sub_cancel] at hpower
    rw [← hpower]
    norm_cast
  obtain ⟨m, gap, hgap, hlt, hvalue, hnext, hbefore⟩ := exists_magnitude_gap h0
  have hm : (m : Rat) * gap ≤ 2 * leadingBit * gap :=
    mul_le_mul_of_nonneg_right (by exact_mod_cast hlt.le) hgap.le
  unfold leadingBit at *
  obtain hbefore | ⟨rfl, hbefore⟩ := hbefore
  · norm_num at *
    linarith
  · norm_num at *
    linarith

/-- The exponent at which the search stops is the first one at which something is found. -/
theorem exists_shortest : ∃ n < 17,
    (shortest r).exponent = leadingExponent (unitsOfRank r) - (n : Nat) ∧
    IsRoundTrip (shortest r) r ∧
    ∀ i < n, roundTripAt r (leadingExponent (unitsOfRank r) - (i : Nat)) = none := by
  have hlast := exists_roundTripAt h0 hr
  rw [shortest_eq]
  generalize leadingExponent (unitsOfRank r) = lead at *
  cases hfind : (List.range 17).findSome? fun n : Nat => roundTripAt r (lead - n) with
  | none => exact absurd (List.findSome?_eq_none_iff.mp hfind 16 (by decide)) hlast
  | some d =>
    obtain ⟨n, hn, hd, hnone⟩ := exists_first_of_findSome? hfind
    obtain ⟨hexponent, htrip⟩ := isRoundTrip_of_roundTripAt hr hd
    exact ⟨n, hn, hexponent, htrip, hnone⟩

omit hr in
/-- On the grid of one more digit a magnitude lies between the powers of ten. -/
theorem gridFloor_bounds (n : Nat) :
    10 ^ n ≤ gridFloor r (leadingExponent (unitsOfRank r) - n) ∧
      gridFloor r (leadingExponent (unitsOfRank r) - n) < 10 ^ (n + 1) := by
  obtain ⟨hlow, hhigh⟩ := leading_bounds h0
  generalize leadingExponent (unitsOfRank r) = lead at *
  constructor
  · rw [le_gridFloor_iff, Decimal.toRat, natCast_ten_pow_mul, add_sub_cancel]
    exact hlow
  · refine lt_of_not_ge fun hle => absurd (le_gridFloor_iff.mp hle) (not_le.mpr ?_)
    rw [Decimal.toRat, natCast_ten_pow_mul]
    refine hhigh.trans_eq (congrArg _ ?_)
    push_cast
    ring

omit hr in
theorem length_digits_shortest {n : Nat}
    (hexponent : (shortest r).exponent = leadingExponent (unitsOfRank r) - n)
    (htrip : IsRoundTrip (shortest r) r) : (shortest r).digits.length ≤ n + 1 := by
  obtain ⟨-, hhigh⟩ := gridFloor_bounds h0 n
  refine Decimal.length_digits_le (Nat.succ_pos n) ?_
  obtain hcoefficient | hcoefficient := htrip.coefficient
  · rw [hcoefficient, hexponent]
    exact hhigh.le
  · rw [hcoefficient, hexponent]
    exact hhigh

/-- A decimal that rounds back and has no more digits than the grid is on the grid, or it lies below
the leading power of ten, which then rounds back too. -/
theorem onGrid_or_lt {n : Nat} {d : Decimal} (hrank : d.rank = r)
    (hlength : d.digits.length ≤ n + 1)
    (hnone : ∀ i < n, roundTripAt r (leadingExponent (unitsOfRank r) - (i : Nat)) = none) :
    d.digits.length = n + 1 ∧
        (∃ c : Nat, d.toRat = (⟨c, leadingExponent (unitsOfRank r) - n⟩ : Decimal).toRat) ∨
      n = 0 ∧ d.toRat < (⟨1, leadingExponent (unitsOfRank r)⟩ : Decimal).toRat ∧
        (⟨1, leadingExponent (unitsOfRank r)⟩ : Decimal).rank = r := by
  obtain ⟨hlead, -⟩ := leading_bounds h0
  generalize leadingExponent (unitsOfRank r) = lead at *
  have hne : d.coefficient ≠ 0 := Decimal.coefficient_ne_zero (hrank.trans_ne h0.ne')
  have hpos := List.length_pos_iff.mpr (Decimal.significant_digits hne).ne_nil
  by_cases hpoint : lead < d.point
  · -- with as many digits in front as the magnitude, the last digit is on a grid that was searched
    obtain ⟨zeros, hzeros⟩ := Int.le.dest (Int.add_one_le_of_lt hpoint)
    have hgrid : d.toRat = (⟨digitsValue d.digits * 10 ^ zeros,
        lead - (d.digits.length - 1 : Nat)⟩ : Decimal).toRat := by
      rw [d.toRat_eq_digits, Decimal.toRat_refine]
      congr 2
      push_cast [hpos]
      omega
    have hlast : n ≤ d.digits.length - 1 := by
      by_contra hlt
      exact rank_ne_of_toRat_eq hr (hnone _ (not_le.mp hlt)) _ hgrid hrank
    obtain rfl : n = d.digits.length - 1 := by omega
    exact .inl ⟨by omega, _, hgrid⟩
  · obtain ⟨-, hlt⟩ := Decimal.toRat_bounds hne
    have hle : (10 : Rat) ^ d.point ≤ 10 ^ lead :=
      zpow_le_zpow_right₀ (by norm_num) (not_lt.mp hpoint)
    have hone := Decimal.toRat_one lead
    have hback : (⟨1, lead⟩ : Decimal).rank = r := by
      rw [Decimal.rank_eq] at hrank ⊢
      refine Nat.le_antisymm ?_ ?_
      · exact (rankOfRat_mono (Decimal.toRat_nonneg _) (hone.trans_le hlead)).trans_eq
          (rankOfRat_magnitude hr)
      · exact hrank.ge.trans
          (rankOfRat_mono d.toRat_nonneg ((hlt.le.trans hle).trans_eq hone.symm))
    refine .inr ⟨?_, (hlt.trans_le hle).trans_eq hone.symm, hback⟩
    by_contra hn
    have hfirst := hnone 0 (Nat.pos_of_ne_zero hn)
    rw [Nat.cast_zero, sub_zero] at hfirst
    exact rank_ne_of_roundTripAt hr hfirst 1 hback

/-- The decimal rounds back, none that does has fewer digits, and none of as many digits that does
is closer. -/
structure IsShortest (d : Decimal) (r : Nat) : Prop where
  rank_eq : d.rank = r
  length_le : ∀ e : Decimal, e.rank = r → d.digits.length ≤ e.digits.length
  closest : ∀ e : Decimal, e.rank = r → e.digits.length = d.digits.length →
    |magnitude r - d.toRat| ≤ |magnitude r - e.toRat|

/-- There is no shorter decimal that rounds back, and no closer one that is as short. -/
theorem isShortest_shortest : IsShortest (shortest r) r := by
  obtain ⟨n, -, hexponent, htrip, hnone⟩ := exists_shortest h0 hr
  have hdigits := length_digits_shortest h0 hexponent htrip
  obtain ⟨hlead, -⟩ := leading_bounds h0
  refine ⟨htrip.rank_eq, fun e he => ?_, fun e he hlength => ?_⟩
  · obtain hmany | hfew := Nat.lt_or_ge (n + 1) e.digits.length
    · omega
    · obtain ⟨hlength, -⟩ | ⟨rfl, -, -⟩ := onGrid_or_lt h0 hr he hfew hnone
      · omega
      · have hne : e.coefficient ≠ 0 := Decimal.coefficient_ne_zero (he.trans_ne h0.ne')
        have hpos := List.length_pos_iff.mpr (Decimal.significant_digits hne).ne_nil
        omega
  · have hclosest := htrip.closest
    rw [hexponent] at hclosest
    obtain ⟨-, c, hc⟩ | ⟨rfl, hlt, hback⟩ := onGrid_or_lt h0 hr he (by omega) hnone
    · rw [hc]
      refine hclosest c ?_
      rw [Decimal.rank_eq, ← hc, ← Decimal.rank_eq, he]
    · rw [Nat.cast_zero, sub_zero] at hclosest
      rw [Decimal.toRat_one] at hlt
      calc |magnitude r - (shortest r).toRat|
        _ ≤ |magnitude r - 10 ^ leadingExponent (unitsOfRank r)| :=
          Decimal.toRat_one _ ▸ hclosest 1 hback
        _ = magnitude r - 10 ^ leadingExponent (unitsOfRank r) :=
          abs_of_nonneg (sub_nonneg.mpr hlead)
        _ ≤ magnitude r - e.toRat := sub_le_sub_left hlt.le _
        _ ≤ |magnitude r - e.toRat| := le_abs_self _

theorem length_digits_shortest_le : (shortest r).digits.length ≤ 17 := by
  obtain ⟨n, hn, hexponent, htrip, -⟩ := exists_shortest h0 hr
  have := length_digits_shortest h0 hexponent htrip
  omega

/-- The shortest decimal rounds back. -/
theorem rankOfRat_shortest : rankOfRat (shortest r).toRat = r := by
  rw [← Decimal.rank_eq, (isShortest_shortest h0 hr).rank_eq]

theorem coefficient_shortest_ne_zero : (shortest r).coefficient ≠ 0 :=
  Decimal.coefficient_ne_zero ((isShortest_shortest h0 hr).rank_eq.trans_ne h0.ne')

/-- The numeral of a magnitude lays out the significant digits of its shortest decimal. -/
theorem laidOut_numeral : Significant (shortest r).digits ∧
    LaidOut (shortest r).digits (shortest r).point (numeral r) := by
  have hdigits := Decimal.significant_digits (coefficient_shortest_ne_zero h0 hr)
  exact ⟨hdigits, laidOut_layOut hdigits.ne_nil _⟩

end
end Binary64
end NestedStyles

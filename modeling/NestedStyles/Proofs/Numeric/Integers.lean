import NestedStyles.Proofs.Numeric.Layout
import NestedStyles.Style.Basic

/-!
# The numerals of integers

A natural whose digits in base two fit the significand is its own magnitude
(`Binary64.magnitude_rankOfRat_exact`), and so are the powers of ten up to `10²²`. Between these no
shortest decimal has more digits than the natural that it stands for, so no digit of it is behind
the point (`Binary64.exists_numeral_eq_toDigits`).
-/

namespace NestedStyles

open Grammar
open RegularExpression (char)
open scoped Computability

/-- The numeral of an integer. -/
def Grammar.integer : RegularExpression Char := char '0' + signed positive

namespace Binary64

/-! ## Integers that are magnitudes -/

/-- A short significand is not rounded, at any scale. -/
theorem unitsOfRank_nearestRank {m k : Nat} (hm : m < 2 * leadingBit) (hk : m * 2 ^ k < 2 ^ 2097) :
    unitsOfRank (nearestRank (m * 2 ^ k) 1) = m * 2 ^ k := by
  obtain ⟨scale, significand, hrank, hround, hle, hscale⟩ := exists_nearestRank (m * 2 ^ k) 1
  have hfinite := nearestRank_lt (n := m * 2 ^ k) (d := 1) (by rwa [Nat.div_one])
  have hsmall : scale ≤ k := by
    rcases hscale with rfl | ⟨-, hfull⟩
    · exact Nat.zero_le k
    · rw [Nat.div_one] at hfull
      by_contra hlt
      have hnext := Nat.pow_le_pow_right (n := 2) (by decide) (not_le.mp hlt)
      have htwice := (Nat.mul_le_mul_left leadingBit hnext).trans hfull
      rw [Nat.pow_succ', ← mul_assoc, mul_comm leadingBit] at htwice
      exact absurd (Nat.le_of_mul_le_mul_right htwice (Nat.two_pow_pos k)) (not_le.mpr hm)
  obtain ⟨extra, rfl⟩ := Nat.exists_eq_add_of_le hsmall
  have hsplit : m * 2 ^ (scale + extra) = m * 2 ^ extra * 2 ^ scale := by ring
  rw [Nat.one_mul, hsplit, roundHalfEven_mul _ (Nat.two_pow_pos scale)] at hround
  rw [hrank, min_eq_right (by omega), unitsOfRank_scaled hle (hscale.symm.imp_left And.left),
    hround, hsplit]

theorem rankOfRat_natCast (n : Nat) : rankOfRat n = nearestRank (n * unitsPerOne) 1 := by
  rw [← rankOfRat_div n Nat.one_pos, Nat.cast_one, div_one]

theorem exists_unitsPerOne_eq : ∃ k, unitsPerOne = 2 ^ k := ⟨1074, by decide +kernel⟩

/-- A natural that a significand can hold is a magnitude itself, and so is it times a power of
two. -/
theorem magnitude_rankOfRat_exact {m s : Nat} (hm : m < 2 * leadingBit)
    (hs : m * 2 ^ s < 2 ^ 1023) :
    magnitude (rankOfRat (m * 2 ^ s : Nat)) = (m * 2 ^ s : Nat) := by
  obtain ⟨k, hk⟩ := exists_unitsPerOne_eq
  have hunits : m * 2 ^ s * unitsPerOne = m * 2 ^ (s + k) := by
    rw [hk, Nat.mul_assoc, Nat.pow_add]
  have hlimit : 2 ^ 2097 = 2 ^ 1023 * unitsPerOne := by decide +kernel
  have hlt : m * 2 ^ (s + k) < 2 ^ 2097 := by
    rw [hlimit, ← hunits]
    exact Nat.mul_lt_mul_of_pos_right hs unitsPerOne_pos
  rw [rankOfRat_natCast, magnitude, hunits, unitsOfRank_nearestRank hm hlt, ← hunits, Nat.cast_mul,
    mul_div_cancel_right₀ _ unitsPerOne_pos_rat.ne']

theorem magnitude_rankOfRat_of_lt {n : Nat} (h : n < 2 * leadingBit) :
    magnitude (rankOfRat n) = n := by
  have hexact := magnitude_rankOfRat_exact (s := 0) h
  rw [pow_zero, Nat.mul_one] at hexact
  exact hexact (Nat.lt_trans h (by decide +kernel))

/-- The powers of ten up to `10 ^ 22` are magnitudes themselves. -/
theorem magnitude_rankOfRat_ten_pow {j : Nat} (h : j ≤ 22) :
    magnitude (rankOfRat (10 ^ j : Nat)) = (10 ^ j : Nat) := by
  have hfive : 5 ^ j < 2 * leadingBit :=
    Nat.lt_of_le_of_lt (Nat.pow_le_pow_right (by decide) h) (by decide)
  have hten : 10 ^ j = 5 ^ j * 2 ^ j := (Nat.mul_pow 5 2 j)
  have hlt : 10 ^ j < 2 ^ 1023 :=
    Nat.lt_of_le_of_lt (Nat.pow_le_pow_right (by decide) h) (by decide +kernel)
  rw [hten] at hlt ⊢
  exact magnitude_rankOfRat_exact hfive hlt

/-- No other natural is rounded to where a short one is. -/
theorem eq_of_rankOfRat_eq {m n : Nat} (hn : n < 2 * leadingBit) (h : rankOfRat m = rankOfRat n) :
    m = n := by
  have hvalue := magnitude_rankOfRat_of_lt hn
  obtain hm | hm := Nat.lt_or_ge m (2 * leadingBit)
  · have hm := magnitude_rankOfRat_of_lt hm
    rw [h, hvalue] at hm
    exact_mod_cast hm.symm
  · have hlimit : magnitude (rankOfRat (1 * 2 ^ 53 : Nat)) = (1 * 2 ^ 53 : Nat) :=
      magnitude_rankOfRat_exact (by decide) (by decide +kernel)
    have hle : rankOfRat (1 * 2 ^ 53 : Nat) ≤ rankOfRat n := by
      rw [← h]
      exact rankOfRat_mono (Nat.cast_nonneg _) (Nat.cast_le.mpr hm)
    have hmagnitude := strictMono_magnitude.monotone hle
    rw [hlimit, hvalue, Nat.cast_le] at hmagnitude
    exact absurd hn (not_lt.mpr hmagnitude)

/-! ## Their shortest decimals -/

section
variable {n : Nat}

theorem rankOfRat_natCast_pos (h : n ≠ 0) : 0 < rankOfRat n := by
  have hone : magnitude (rankOfRat (1 : Nat)) = (1 : Nat) := magnitude_rankOfRat_of_lt (by decide)
  have hpos : 0 < rankOfRat (1 : Nat) := by
    refine Nat.pos_of_ne_zero fun hzero => ?_
    rw [hzero, magnitude_zero, Nat.cast_one] at hone
    exact zero_ne_one hone
  refine hpos.trans_le (rankOfRat_mono (Nat.cast_nonneg 1) (Nat.cast_le.mpr ?_))
  exact Nat.one_le_iff_ne_zero.mpr h

theorem rankOfRat_natCast_lt (h : n < 2 ^ 1023) : rankOfRat n < infinityRank :=
  rankOfRat_natCast n ▸ nearestRank_natural_lt h

theorem rank_ten_pow (j : Nat) : (⟨1, j⟩ : Decimal).rank = rankOfRat (10 ^ j : Nat) := by
  rw [Decimal.rank_eq, Decimal.toRat_one, zpow_natCast, Nat.cast_pow, Nat.cast_ofNat]

/-- A decimal that is a magnitude and is not longer than the shortest is the shortest. -/
theorem toRat_shortest_of_exact {r : Nat} (h0 : 0 < r) (hr : r < infinityRank) {d : Decimal}
    (hd : d.toRat = magnitude r) (hlength : d.digits.length ≤ (shortest r).digits.length) :
    (shortest r).toRat = magnitude r := by
  have hshortest := isShortest_shortest h0 hr
  have hrank : d.rank = r := by rw [Decimal.rank_eq, hd, rankOfRat_magnitude hr]
  have hclosest := hshortest.closest d hrank (hlength.antisymm (hshortest.length_le d hrank))
  rw [hd, sub_self, abs_zero] at hclosest
  exact (sub_eq_zero.mp (abs_nonpos_iff.mp hclosest)).symm

/-- The shortest decimal of such a power is the power. -/
theorem toRat_shortest_ten_pow {j : Nat} (h : j ≤ 22) :
    (shortest (⟨1, j⟩ : Decimal).rank).toRat = 10 ^ (j : Int) := by
  have hvalue := magnitude_rankOfRat_ten_pow h
  have h0 : 0 < rankOfRat (10 ^ j : Nat) := rankOfRat_natCast_pos (Nat.pow_pos (by decide)).ne'
  have hr : rankOfRat (10 ^ j : Nat) < infinityRank := by
    refine rankOfRat_natCast_lt (Nat.lt_of_le_of_lt (Nat.pow_le_pow_right (by decide) h) ?_)
    decide +kernel
  have hten : ((10 ^ j : Nat) : Rat) = 10 ^ (j : Int) := by
    rw [zpow_natCast, Nat.cast_pow, Nat.cast_ofNat]
  have hpos := List.length_pos_iff.mpr
    (Decimal.significant_digits (coefficient_shortest_ne_zero h0 hr)).ne_nil
  have hone : (⟨1, j⟩ : Decimal).toRat = magnitude (rankOfRat (10 ^ j : Nat)) := by
    rw [hvalue, hten, Decimal.toRat_one]
  have hlength : (⟨1, j⟩ : Decimal).digits.length ≤ 1 :=
    Decimal.length_digits_le Nat.one_pos (show 1 ≤ 10 ^ 1 by decide)
  rw [rank_ten_pow, toRat_shortest_of_exact h0 hr hone (hlength.trans hpos), hvalue, hten]

variable (h0 : n ≠ 0) (hn : n ≤ 10 ^ 20)
include h0 hn

theorem rankOfRat_bounds : 0 < rankOfRat n ∧ rankOfRat n < infinityRank := by
  refine ⟨rankOfRat_natCast_pos h0, rankOfRat_natCast_lt (Nat.lt_of_le_of_lt hn ?_)⟩
  decide +kernel

/-- The shortest decimal has no digits behind the point. -/
theorem length_digits_le_point :
    (shortest (rankOfRat n)).digits.length ≤ (shortest (rankOfRat n)).point ∧
      (shortest (rankOfRat n)).point ≤ 21 := by
  obtain ⟨hpos, hr⟩ := rankOfRat_bounds h0 hn
  obtain ⟨k, -, hlow, hhigh⟩ := exists_length_toDigits h0
  have hk : k ≤ 20 := (Nat.pow_le_pow_iff_right (by decide)).mp (hlow.trans hn)
  have hlength : (shortest (rankOfRat n)).digits.length ≤ k + 1 := by
    have hself : (⟨n, 0⟩ : Decimal).rank = rankOfRat n := by
      rw [Decimal.rank_eq, Decimal.toRat, zpow_zero, mul_one]
    refine ((isShortest_shortest hpos hr).length_le ⟨n, 0⟩ hself).trans ?_
    exact Decimal.length_digits_le k.succ_pos hhigh.le
  have hpoint : (k : Int) < (shortest (rankOfRat n)).point := by
    rw [← rank_le_iff_lt_point hpos hr (toRat_shortest_ten_pow (by omega)), rank_ten_pow]
    exact rankOfRat_mono (Nat.cast_nonneg _) (Nat.cast_le.mpr hlow)
  refine ⟨by omega, not_lt.mp fun hlarge => ?_⟩
  have hle : rankOfRat (10 ^ 21 : Nat) ≤ rankOfRat (10 ^ 20 : Nat) := by
    rw [← rank_ten_pow]
    exact (rank_le_of_lt_point hpos hr hlarge).trans
      (rankOfRat_mono (Nat.cast_nonneg _) (Nat.cast_le.mpr hn))
  have hmagnitude := strictMono_magnitude.monotone hle
  rw [magnitude_rankOfRat_ten_pow (by decide), magnitude_rankOfRat_ten_pow (by decide),
    Nat.cast_le] at hmagnitude
  exact absurd hmagnitude (by decide)

/-- Nor has the numeral, which is that of the integer that the shortest decimal is. -/
theorem exists_numeral_eq_toDigits : ∃ w : Nat, (w : Rat) = (shortest (rankOfRat n)).toRat ∧
    numeral (rankOfRat n) = Nat.toDigits 10 w := by
  obtain ⟨hpos, hr⟩ := rankOfRat_bounds h0 hn
  obtain ⟨hdigits, -⟩ := laidOut_numeral hpos hr
  obtain ⟨hle, hpoint⟩ := length_digits_le_point h0 hn
  obtain ⟨zeros, hzeros⟩ := Int.le.dest hle
  have hvalue := (shortest (rankOfRat n)).toRat_eq_digits
  have hpadded : numeral (rankOfRat n) =
      (shortest (rankOfRat n)).digits ++ List.replicate zeros '0' := by
    rw [numeral, layOut, if_pos ⟨hle, hpoint⟩, ← hzeros, ← Int.natCast_add, Int.toNat_natCast,
      Nat.add_sub_cancel_left]
  refine ⟨digitsValue (numeral (rankOfRat n)), ?_, ?_⟩
  · have hwhole : (shortest (rankOfRat n)).point - (shortest (rankOfRat n)).digits.length =
        zeros + 0 := by omega
    rw [(shortest (rankOfRat n)).toRat_eq_digits, hwhole, ← Decimal.toRat_refine, Decimal.toRat,
      zpow_zero, mul_one, hpadded, digitsValue_append, digitsValue_replicate_zero,
      List.length_replicate, Nat.add_zero]
  · obtain ⟨c, ds, hds, hc⟩ := hdigits.head
    have hall : ∀ d ∈ numeral (rankOfRat n), d.isDigit := by
      rw [hpadded]
      exact List.forall_mem_append.mpr ⟨hdigits.isDigit, isDigit_of_mem_zeros⟩
    rw [hpadded, hds, List.cons_append] at hall ⊢
    rw [toDigits_digitsValue hall hc]

end

/-- Up to where integers are no longer magnitudes, the shortest decimal of one is itself. -/
theorem eq_of_toRat_shortest {w n : Nat} (h0 : n ≠ 0) (hn : n ≤ 2 ^ 53)
    (h : (w : Rat) = (shortest (rankOfRat n)).toRat) : w = n := by
  obtain ⟨hpos, hr⟩ := rankOfRat_bounds h0 (hn.trans (by decide))
  obtain hlt | rfl := Nat.lt_or_eq_of_le hn
  · refine eq_of_rankOfRat_eq hlt ?_
    rw [h, rankOfRat_shortest hpos hr]
  · -- the next magnitude is two away, and what is between has as many digits
    have hshortest : shortest (nearestRank (2 ^ 53 * unitsPerOne) 1) = ⟨2 ^ 53, 0⟩ := by
      decide +kernel
    rw [rankOfRat_natCast, hshortest, Decimal.toRat, zpow_zero, mul_one] at h
    exact Nat.cast_injective h

/-! ## Their texts -/

theorem ofInt_eq (v : Int) : ofInt v = ofRank (decide (v < 0)) (rankOfRat v.natAbs) := by
  rw [rankOfRat_natCast]
  rfl

/-- The text of a number that an integer becomes is the numeral of an integer that becomes it, and
for a short integer that one is no other. -/
theorem exists_text_ofInt {v : Int} (h : v.natAbs ≤ 10 ^ 20) :
    ∃ i : Int, (ofInt v).text = toString i ∧ ofInt i = ofInt v ∧ (v.natAbs ≤ 2 ^ 53 → i = v) := by
  have hword : rankOfRat v.natAbs < signBit :=
    Nat.lt_of_le_of_lt (nearestRank_le_infinityRank ..) infinityRank_lt_signBit
  have hrank : (ofInt v).rank = rankOfRat v.natAbs := ofInt_eq v ▸ rank_ofRank _ hword
  have hnegative : (ofInt v).negative = decide (v < 0) := ofInt_eq v ▸ negative_ofRank _ hword
  obtain rfl | hne := eq_or_ne v 0
  · rw [Int.natAbs_zero, Nat.cast_zero, rankOfRat_zero] at hrank
    exact ⟨0, text_of_rank_eq_zero hrank, rfl, fun _ => rfl⟩
  · have h0 := Int.natAbs_ne_zero.mpr hne
    obtain ⟨hpos, hr⟩ := rankOfRat_bounds h0 h
    obtain ⟨w, hvalue, hnumeral⟩ := exists_numeral_eq_toDigits h0 h
    have hback : rankOfRat w = rankOfRat v.natAbs := by rw [hvalue, rankOfRat_shortest hpos hr]
    have hw : w ≠ 0 := by
      rintro rfl
      rw [← hback, Nat.cast_zero, rankOfRat_zero] at hpos
      exact lt_irrefl 0 hpos
    obtain ⟨i, hsign, rfl⟩ : ∃ i : Int, (i < 0 ↔ v < 0) ∧ i.natAbs = w := by
      by_cases hv : v < 0
      · exact ⟨-w, by omega, Int.natAbs_neg w⟩
      · exact ⟨w, by omega, Int.natAbs_natCast w⟩
    refine ⟨i, String.ext ?_, ?_, fun hsmall => ?_⟩
    · have hfinite := isFinite_iff.mpr (hrank ▸ hr)
      rw [toList_text hfinite (hrank ▸ hpos.ne'), hrank, hnegative, hnumeral, toList_toString]
      simp only [hsign, decide_eq_true_eq]
    · rw [ofInt_eq, ofInt_eq v, hback, decide_eq_decide.mpr hsign]
    · have habs := eq_of_toRat_shortest h0 hsmall hvalue
      omega

end Binary64

/-- An integer is written as the grammar of integers says. -/
theorem toList_toString_mem_integer (i : Int) : (toString i).toList ∈ Grammar.integer.matches' := by
  rw [toList_toString]
  obtain rfl | hne := eq_or_ne i 0
  · exact .inl rfl
  · obtain ⟨c, ds, hds, hc⟩ := exists_toDigits_eq_cons (Int.natAbs_ne_zero.mpr hne)
    have hall : ∀ d ∈ c :: ds, d.isDigit := fun d hd => isDigit_of_mem_toDigits (hds ▸ hd)
    obtain ⟨hdigit, hall⟩ := List.forall_mem_cons.mp hall
    have hsigned := mem_signed (mem_positive hdigit hc hall) (decide (i < 0))
    simp only [decide_eq_true_eq] at hsigned
    rw [hds]
    exact .inr hsigned

/-- Whatever an integer of sixty-four bits becomes as a number is written as an integer that becomes
the same number, without a point or an exponent. Up to `2 ^ 53` on both sides of zero it is written
as it is. -/
theorem Value.written_ofInt {v : Int} (hlow : -2 ^ 63 ≤ v) (hhigh : v < 2 ^ 64) :
    (Value.number (.ofInt v)).written.toList ∈ Grammar.integer.matches' ∧
    (∃ i : Int, (Value.number (.ofInt v)).written = toString i ∧
      Binary64.ofInt i = Binary64.ofInt v) ∧
    (v.natAbs ≤ 2 ^ 53 → (Value.number (.ofInt v)).written = toString v) := by
  obtain ⟨i, htext, hback, hsame⟩ := Binary64.exists_text_ofInt (v := v) (by omega)
  have hwritten : (Value.number (.ofInt v)).written = toString i := htext
  rw [hwritten]
  refine ⟨toList_toString_mem_integer i, ⟨i, rfl, hback⟩, fun h => ?_⟩
  rw [hsame h]

/-- The largest integer of sixty-four bits is rounded up, and the shortest decimal that is rounded
to the same number is larger still. -/
theorem Value.written_ofInt_largest : (-2 ^ 63 ≤ (2 ^ 64 - 1 : Int) ∧ (2 ^ 64 - 1 : Int) < 2 ^ 64) ∧
    (Value.number (.ofInt (2 ^ 64 - 1))).written = "18446744073709552000" ∧
    "18446744073709552000".toList ∈ Grammar.integer.matches' := by
  have hwritten : (Value.number (.ofInt (2 ^ 64 - 1))).written = "18446744073709552000" := by
    decide +kernel
  have hform := (written_ofInt (v := 2 ^ 64 - 1) (by decide) (by decide)).1
  rw [hwritten] at hform
  exact ⟨⟨by decide, by decide⟩, hwritten, hform⟩

end NestedStyles

import Mathlib.Data.String.Basic
import NestedStyles.Proofs.Numeric.Grammar
import NestedStyles.Proofs.Numeric.Shortest

/-!
# The layout of numerals

The layout of a number is decided by the place of its point, and so by its magnitude: both
thresholds are the shortest decimals of the numbers closest to them, so that no number is rounded
across (`Binary64.rank_le_iff_lt_point`). Positional numerals are those of magnitudes from the
number closest to `10⁻⁶` to below the one closest to `10²¹` (`Binary64.text_layout`).
-/

namespace NestedStyles

open Grammar

section
variable {ds cs : List Char}

/-! ## The size of numerals -/

/-- Seventeen digits and an exponent of three need at most 24 characters. -/
theorem LaidOut.length_le {point : Int} (h : LaidOut ds point cs) (hds : ds.length ≤ 17)
    (hlow : -999 < point) (hhigh : point ≤ 1000) : cs.length ≤ 24 := by
  cases h with
  | padded hrange =>
    rw [List.length_append, List.length_replicate]
    omega
  | parted hwhole hpart hrange =>
    rw [List.length_append, List.length_cons]
    rw [List.length_append] at hds
    omega
  | small hrange =>
    rw [List.length_cons, List.length_cons, List.length_append, List.length_replicate]
    omega
  | @power lead part point hrange =>
    have hpower : (Nat.toDigits 10 (point - 1).natAbs).length ≤ 3 :=
      (Nat.length_toDigits_le_iff (by decide) (by decide)).mpr (by omega)
    have hpart : (if part.isEmpty then [] else '.' :: part).length ≤ part.length + 1 := by
      split
      · exact Nat.zero_le _
      · exact Nat.le_refl _
    simp only [List.length_cons, List.length_append] at hds ⊢
    omega

/-! ## Cuts and counts -/

/-- The parts of a text around a place in it, if there is such a place. -/
def cut? (ds : List Char) (i : Int) : Option (List Char × List Char) :=
  if 0 ≤ i ∧ i ≤ ds.length then some (ds.take i.toNat, ds.drop i.toNat) else none

/-- So many zeros, if that is a number of zeros. -/
def zeros? (n : Int) : Option (List Char) :=
  if 0 ≤ n then some (List.replicate n.toNat '0') else none

/-- The layout of digits, if every cut lies within them and no count of zeros is negative. -/
def layOut? (ds : List Char) (point : Int) : Option (List Char) :=
  if ds.length ≤ point ∧ point ≤ 21 then do
    let zeros ← zeros? (point - ds.length)
    return ds ++ zeros
  else if 0 < point ∧ point ≤ 21 then do
    let (whole, fraction) ← cut? ds point
    return whole ++ '.' :: fraction
  else if -6 < point ∧ point ≤ 0 then do
    let zeros ← zeros? (-point)
    return '0' :: '.' :: (zeros ++ ds)
  else do
    let (lead, fraction) ← cut? ds 1
    return lead ++ (if fraction.isEmpty then [] else '.' :: fraction) ++
      'e' :: (if point ≤ 0 then '-' else '+') :: Nat.toDigits 10 (point - 1).natAbs

/-- No cut is made outside of the digits, and no count of zeros is negative. -/
theorem layOut?_eq (hds : ds ≠ []) (point : Int) : layOut? ds point = some (layOut ds point) := by
  have hpos := List.length_pos_iff.mpr hds
  unfold layOut? layOut
  split
  · next h =>
    rw [zeros?, if_pos (by omega), Int.toNat_sub']
    rfl
  split
  · next h =>
    rw [cut?, if_pos (by omega)]
    rfl
  split
  · next h =>
    rw [zeros?, if_pos (by omega)]
    rfl
  · rw [cut?, if_pos (by omega)]
    rfl

end

/-! ## The place of the point and the magnitude -/

namespace Binary64

section
variable {r : Nat} {j : Int} (h0 : 0 < r) (hr : r < infinityRank)
include h0 hr

theorem rank_le_of_lt_point (h : j < (shortest r).point) : (⟨1, j⟩ : Decimal).rank ≤ r := by
  obtain ⟨hlow, -⟩ := Decimal.toRat_bounds (coefficient_shortest_ne_zero h0 hr)
  rw [Decimal.rank_eq]
  refine (rankOfRat_mono (Decimal.toRat_nonneg _) ?_).trans_eq (rankOfRat_shortest h0 hr)
  rw [Decimal.toRat_one]
  exact (zpow_le_zpow_right₀ (by norm_num) (by omega)).trans hlow

theorem le_rank_of_point_le (h : (shortest r).point ≤ j) :
    (shortest r).toRat < 10 ^ j ∧ r ≤ (⟨1, j⟩ : Decimal).rank := by
  obtain ⟨-, hhigh⟩ := Decimal.toRat_bounds (coefficient_shortest_ne_zero h0 hr)
  have hlt := hhigh.trans_le (zpow_le_zpow_right₀ (by norm_num) h)
  rw [Decimal.rank_eq, Decimal.toRat_one]
  refine ⟨hlt, (rankOfRat_shortest h0 hr).ge.trans ?_⟩
  exact rankOfRat_mono (Decimal.toRat_nonneg _) hlt.le

/-- Rounding does not carry a number over a power of ten that is its own shortest decimal. -/
theorem rank_le_iff_lt_point (hj : (shortest (⟨1, j⟩ : Decimal).rank).toRat = 10 ^ j) :
    (⟨1, j⟩ : Decimal).rank ≤ r ↔ j < (shortest r).point := by
  constructor
  · intro hle
    by_contra hpoint
    obtain ⟨hlt, hge⟩ := le_rank_of_point_le h0 hr (not_lt.mp hpoint)
    rw [← Nat.le_antisymm hle hge, hj] at hlt
    exact lt_irrefl _ hlt
  · exact rank_le_of_lt_point h0 hr

/-- The exponents of doubles have at most three digits. -/
theorem point_bounds : -999 < (shortest r).point ∧ (shortest r).point ≤ 1000 := by
  constructor
  · by_contra hpoint
    obtain ⟨-, hle⟩ := le_rank_of_point_le h0 hr (not_lt.mp hpoint)
    have hzero : (⟨1, -999⟩ : Decimal).rank = 0 := by decide +kernel
    omega
  · by_contra hpoint
    have hle := rank_le_of_lt_point h0 hr (not_le.mp hpoint)
    have hinfinite : (⟨1, 1000⟩ : Decimal).rank = infinityRank := by decide +kernel
    omega

end

variable {x : Binary64}

/-- The number closest to a power of ten. -/
theorem toRat_ofRat_ten_zpow {j : Int} (h : (⟨1, j⟩ : Decimal).rank < infinityRank) :
    (ofRat (10 ^ j)).toRat = magnitude (⟨1, j⟩ : Decimal).rank := by
  have hnonneg : ¬(10 : Rat) ^ j < 0 := (ten_zpow_pos j).le.not_gt
  have hword := Nat.lt_trans h infinityRank_lt_signBit
  rw [Decimal.rank_eq, Decimal.toRat_one] at *
  rw [toRat_eq, ofRat_eq, rank_ofRank _ hword, negative_ofRank _ hword, decide_eq_false hnonneg,
    if_neg Bool.false_ne_true]

theorem rank_lt_signBit (x : Binary64) : x.rank < signBit :=
  Nat.mod_lt _ (Nat.two_pow_pos 63)

theorem neg_eq (x : Binary64) : -x = ofRank (!x.negative) x.rank := rfl

theorem rank_neg (x : Binary64) : (-x).rank = x.rank := by
  rw [neg_eq, rank_ofRank _ x.rank_lt_signBit]

theorem negative_neg (x : Binary64) : (-x).negative = !x.negative := by
  rw [neg_eq, negative_ofRank _ x.rank_lt_signBit]

/-- A negative number is written like its magnitude, with a minus in front. -/
theorem text_neg (hfinite : x.isFinite) (h0 : x.rank ≠ 0) (h : x.negative = false) :
    (-x).text = "-" ++ x.text := by
  have hrank := isFinite_iff.mp hfinite
  have hfinite' : (-x).isFinite := by rw [isFinite_iff, rank_neg]; exact hrank
  have h0' : (-x).rank ≠ 0 := by rw [rank_neg]; exact h0
  have hsign : "-".toList = ['-'] := rfl
  refine String.ext ?_
  rw [String.toList_append, toList_text hfinite h0, toList_text hfinite' h0', negative_neg,
    rank_neg, h, hsign, Bool.not_false, if_pos rfl, if_neg Bool.false_ne_true,
    List.singleton_append]

theorem utf8Size_of_isNumeric {c : Char} (h : isNumeric c) : c.utf8Size = 1 := by
  rw [Char.utf8Size_eq_one_iff]
  simp only [isNumeric, Bool.or_eq_true] at h
  rcases h with h | h
  · have := (toNat_of_isDigit h).2
    show c.toNat ≤ 127
    omega
  · have hall : ("+-.eINafinty".toList.all fun c => c.val ≤ 127) = true := rfl
    exact of_decide_eq_true (List.all_eq_true.mp hall c (List.contains_iff_mem.mp h))

theorem utf8ByteSize_text (x : Binary64) : x.text.utf8ByteSize = x.text.toList.length := by
  have hnumeric : ∀ c ∈ x.text.toList, isNumeric c := fun _ => isNumeric_of_mem_text
  have hsize (cs : List Char) (h : ∀ c ∈ cs, isNumeric c) :
      String.utf8Len cs = cs.length := by
    induction cs with
    | nil => rfl
    | cons c cs ih =>
      obtain ⟨hc, hcs⟩ := List.forall_mem_cons.mp h
      rw [String.utf8Len_cons, ih hcs, utf8Size_of_isNumeric hc, List.length_cons]
  rw [← String.ofList_toList (s := x.text), String.utf8ByteSize_ofList, String.toList_ofList]
  exact hsize _ hnumeric

theorem ten_zpow_le_abs_iff {j : Int} (hfinite : x.isFinite) (h0 : x.rank ≠ 0)
    (hpower : (⟨1, j⟩ : Decimal).rank < infinityRank)
    (hj : (shortest (⟨1, j⟩ : Decimal).rank).toRat = 10 ^ j) :
    (ofRat (10 ^ j)).toRat ≤ |x.toRat| ↔ j < (shortest x.rank).point := by
  rw [toRat_ofRat_ten_zpow hpower, abs_toRat, strictMono_magnitude.le_iff_le,
    rank_le_iff_lt_point (Nat.pos_of_ne_zero h0) (isFinite_iff.mp hfinite) hj]

/-- Positional notation begins at the double that is closest to a millionth. -/
theorem millionth_le_abs_iff (hfinite : x.isFinite) (h0 : x.rank ≠ 0) :
    (ofRat (10 ^ (-6 : Int))).toRat ≤ |x.toRat| ↔ -6 < (shortest x.rank).point := by
  have hshortest : shortest (⟨1, -6⟩ : Decimal).rank = ⟨10, -7⟩ := by decide +kernel
  refine ten_zpow_le_abs_iff hfinite h0 (by decide +kernel) ?_
  rw [hshortest, Decimal.toRat]
  norm_num

theorem sextillion_le_abs_iff (hfinite : x.isFinite) (h0 : x.rank ≠ 0) :
    (ofRat (10 ^ (21 : Int))).toRat ≤ |x.toRat| ↔ 21 < (shortest x.rank).point := by
  have hshortest : shortest (⟨1, 21⟩ : Decimal).rank = ⟨1, 21⟩ := by decide +kernel
  refine ten_zpow_le_abs_iff hfinite h0 (by decide +kernel) ?_
  rw [hshortest, Decimal.toRat_one]

/-- Which layout a number has depends on the place of its decimal point. -/
theorem mem_grammar_text (hfinite : x.isFinite) (h0 : x.rank ≠ 0) :
    -6 < (shortest x.rank).point ∧ (shortest x.rank).point ≤ 21 ∧
        x.text.toList ∈ (signed positional).matches' ∨
      21 < (shortest x.rank).point ∧ x.text.toList ∈ (signed (exponential '+')).matches' ∨
      (shortest x.rank).point ≤ -6 ∧ x.text.toList ∈ (signed (exponential '-')).matches' := by
  obtain ⟨hdigits, hlayout⟩ := laidOut_numeral (Nat.pos_of_ne_zero h0) (isFinite_iff.mp hfinite)
  rw [toList_text hfinite h0]
  rcases hlayout.mem_grammar hdigits with ⟨hlow, hhigh, h⟩ | ⟨hhigh, h⟩ | ⟨hlow, h⟩
  · exact .inl ⟨hlow, hhigh, mem_signed h _⟩
  · exact .inr (.inl ⟨hhigh, mem_signed h _⟩)
  · exact .inr (.inr ⟨hlow, mem_signed h _⟩)

/-- A minus in front means a negative number, and nothing else does. -/
theorem head?_text (hfinite : x.isFinite) (h0 : x.rank ≠ 0) :
    x.text.toList.head? = some '-' ↔ x.negative := by
  obtain ⟨hdigits, hlayout⟩ := laidOut_numeral (Nat.pos_of_ne_zero h0) (isFinite_iff.mp hfinite)
  obtain ⟨c, rest, hnumeral, hc⟩ := hlayout.head_isDigit hdigits.ne_nil hdigits.isDigit
  rw [toList_text hfinite h0, hnumeral]
  cases x.negative with
  | false =>
    simp only [Bool.false_eq_true, if_false, List.head?_cons, Option.some.injEq, iff_false]
    rintro rfl
    cases hc
  | true => simp

theorem utf8ByteSize_text_le (hfinite : x.isFinite) (h0 : x.rank ≠ 0) :
    x.text.utf8ByteSize ≤ 25 := by
  have hpos := Nat.pos_of_ne_zero h0
  have hr := isFinite_iff.mp hfinite
  obtain ⟨hlow, hhigh⟩ := point_bounds hpos hr
  have hlength :=
    (laidOut_numeral hpos hr).2.length_le (length_digits_shortest_le hpos hr) hlow hhigh
  rw [utf8ByteSize_text, toList_text hfinite h0]
  split
  · rw [List.length_cons]
    omega
  · omega

/-- The numeral of a number is positional within the thresholds and has an exponent outside, it has
a sign in front if the number is negative, and it takes up to twenty-five bytes. -/
theorem text_layout {x : Binary64} (hfinite : x.isFinite) (h0 : x.rank ≠ 0) :
    (x.text.toList ∈ (signed positional).matches' ↔
      (ofRat (10 ^ (-6 : Int))).toRat ≤ |x.toRat| ∧ |x.toRat| < (ofRat (10 ^ (21 : Int))).toRat) ∧
    ((ofRat (10 ^ (21 : Int))).toRat ≤ |x.toRat| →
      x.text.toList ∈ (signed (exponential '+')).matches') ∧
    (|x.toRat| < (ofRat (10 ^ (-6 : Int))).toRat →
      x.text.toList ∈ (signed (exponential '-')).matches') ∧
    (x.text.toList.head? = some '-' ↔ x.toRat < 0) ∧
    (0 < x.toRat → (-x).text = "-" ++ x.text) ∧
    x.text.utf8ByteSize ≤ 25 ∧
    layOut? (shortest x.rank).digits (shortest x.rank).point = some (numeral x.rank) := by
  obtain ⟨hdigits, -⟩ := laidOut_numeral (Nat.pos_of_ne_zero h0) (isFinite_iff.mp hfinite)
  have hsign := toRat_neg_iff h0
  have hform := mem_grammar_text hfinite h0
  rw [← not_le, ← not_le, millionth_le_abs_iff hfinite h0, sextillion_le_abs_iff hfinite h0]
  refine ⟨⟨fun h => ?_, fun h => ?_⟩, fun h => ?_, fun h => ?_, ?_, fun h => ?_,
    utf8ByteSize_text_le hfinite h0, layOut?_eq hdigits.ne_nil _⟩
  · have hplain := avoids_positional _ h
    rcases hform with ⟨hlow, hhigh, -⟩ | ⟨-, hpower⟩ | ⟨-, hpower⟩
    · exact ⟨hlow, not_lt.mpr hhigh⟩
    · exact absurd (mem_of_exponential hpower) hplain
    · exact absurd (mem_of_exponential hpower) hplain
  · rcases hform with ⟨-, -, hpositional⟩ | ⟨hhigh, -⟩ | ⟨hlow, -⟩
    · exact hpositional
    · exact absurd hhigh h.2
    · exact absurd h.1 (not_lt.mpr hlow)
  · rcases hform with ⟨-, hhigh, -⟩ | ⟨-, hpower⟩ | ⟨hlow, -⟩
    · exact absurd h (not_lt.mpr hhigh)
    · exact hpower
    · omega
  · rcases hform with ⟨hlow, -, -⟩ | ⟨hhigh, -⟩ | ⟨-, hpower⟩
    · exact absurd hlow h
    · omega
    · exact hpower
  · rw [head?_text hfinite h0, hsign]
  · exact text_neg hfinite h0 (Bool.eq_false_iff.mpr (mt hsign.mpr h.not_gt))

/-- The smallest magnitude has one digit, and its point is far in front of that. -/
theorem text_layout_smallest :
    (⟨1⟩ : Binary64).isFinite ∧ (⟨1⟩ : Binary64).rank ≠ 0 ∧ (⟨1⟩ : Binary64).text = "5e-324" ∧
      "5e-324".toList ∈ (signed (exponential '-')).matches' ∧ "5e-324".utf8ByteSize ≤ 25 := by
  have hfinite : (⟨1⟩ : Binary64).isFinite := by decide +kernel
  have h0 : (⟨1⟩ : Binary64).rank ≠ 0 := by decide +kernel
  have htext : (⟨1⟩ : Binary64).text = "5e-324" := by decide +kernel
  have hpoint : (shortest (⟨1⟩ : Binary64).rank).point ≤ -6 := by decide +kernel
  have hsmall : |(⟨1⟩ : Binary64).toRat| < (ofRat (10 ^ (-6 : Int))).toRat := by
    rw [← not_le, millionth_le_abs_iff hfinite h0]
    exact not_lt.mpr hpoint
  obtain ⟨-, -, hform, -, -, hsize, -⟩ := text_layout hfinite h0
  rw [htext] at hform hsize
  exact ⟨hfinite, h0, htext, hform hsmall, hsize⟩

end Binary64
end NestedStyles

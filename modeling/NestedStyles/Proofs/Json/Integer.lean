import Mathlib.Algebra.GroupWithZero.Nat
import NestedStyles.Proofs.Json.Numeral

/-!
# Integers in decimal

The decimal numeral of an integer stands for exactly that integer while its digits fit the
significand (`Json.unsignedText_toDigits`).
-/

namespace NestedStyles.Json

/-- The decimal numerals of the integers up to `2 ^ 53` on both sides of zero, which are all
doubles. -/
inductive IntegerText : Number → List Char → Prop
  | intro {i : Int} (h : i.natAbs ≤ 2 ^ 53) : IntegerText (.integer i) (toString i).toList

theorem le_ofDigitChars (ds : List Char) (n : Nat) : n ≤ Nat.ofDigitChars 10 ds n := by
  rw [Nat.ofDigitChars_eq_ofDigitChars_zero]
  exact Nat.le_add_right_of_le (Nat.le_mul_of_pos_left n (Nat.pow_pos (by decide)))

/-- No digits of a number within the limit are dropped. -/
theorem gather_digits {limit n : Nat} {ds : List Char} (h : Nat.ofDigitChars 10 ds n ≤ limit) :
    gather limit n (digitValues ds) = (Nat.ofDigitChars 10 ds n, 0) := by
  induction ds generalizing n with
  | nil => rfl
  | cons c ds ih =>
    rw [Nat.ofDigitChars_cons, Nat.mul_comm] at h ⊢
    have hle := Nat.le_trans (le_ofDigitChars ds _) h
    rw [digitValues, List.map_cons, gather, if_neg (Nat.not_lt.mpr hle)]
    exact ih h

/-- The digits of a number do not begin with a zero, except for zero itself. -/
theorem wholeText_toDigits (n : Nat) : WholeText (Nat.toDigits 10 n) := by
  obtain rfl | hn := eq_or_ne n 0
  · exact .zero
  · obtain ⟨c, ds, hds, hc⟩ := exists_toDigits_eq_cons hn
    rw [hds]
    exact .positive hc fun d hd => isDigit_of_mem_toDigits (hds ▸ hd)

theorem unsignedText_toDigits {n : Nat} (h : n ≤ significandLimit) (negative : Bool) :
    UnsignedText negative (wholeNumber negative n) (Nat.toDigits 10 n) := by
  have hgather : gather significandLimit 0 (digitValues (Nat.toDigits 10 n)) = (n, 0) := by
    have hvalue : Nat.ofDigitChars 10 (Nat.toDigits 10 n) 0 = n := Nat.ofDigitChars_ten_toDigits
    rw [gather_digits (hvalue.trans_le h), hvalue]
  have hnumber : numberOf negative (Nat.toDigits 10 n) none none =
      some (wholeNumber negative n) := by
    rw [numberOf, hgather]
    rfl
  have htext := UnsignedText.intro (wholeText_toDigits n) .absent .absent hnumber
  rwa [List.append_nil, List.append_nil] at htext

/-- An integer that fits in a significand can be read back from its digits. -/
theorem numberText_toString {i : Int} (h : i.natAbs ≤ significandLimit) :
    NumberText (.integer i) (toString i).toList := by
  rw [toList_toString]
  by_cases hi : i < 0
  · have hwhole : wholeNumber true i.natAbs = .integer i := by
      rw [wholeNumber, if_pos rfl, if_neg (by omega)]
      exact congrArg _ (by omega)
    rw [if_pos hi]
    exact .negative (hwhole ▸ unsignedText_toDigits h true)
  · have hwhole : wholeNumber false i.natAbs = .integer i := by
      rw [wholeNumber, if_neg Bool.false_ne_true]
      exact congrArg _ (by omega)
    rw [if_neg hi]
    exact .unsigned (hwhole ▸ unsignedText_toDigits h false)

/-- The numeral of an integer is read as that integer. -/
theorem finds_integer (limit : Nat) (n : Number) :
    Finds (value limit) (number n) (IntegerText n) := by
  refine (finds_number limit n).mono ?_
  rintro _ ⟨h⟩
  exact numberText_toString (Nat.le_trans h (by decide))

end NestedStyles.Json

import Mathlib.Data.List.DropRight
import Mathlib.Tactic.Ring
import NestedStyles.Numeric.Shortest

/-!
# Decimal digits

Digits denote a natural (`digitsValue`), and the digits of a decimal are those of its coefficient
without the zeros behind: they begin and end with one that is not zero
(`Decimal.significant_digits`).
-/

namespace NestedStyles

/-- The natural that digits denote. -/
def digitsValue (ds : List Char) : Nat := Nat.ofDigitChars 10 ds 0

@[simp] theorem digitsValue_nil : digitsValue [] = 0 := rfl

@[simp] theorem digitsValue_toDigits (n : Nat) : digitsValue (Nat.toDigits 10 n) = n :=
  Nat.ofDigitChars_ten_toDigits

@[simp] theorem digitsValue_replicate_zero (n : Nat) :
    digitsValue (List.replicate n '0') = 0 :=
  Nat.ofDigitChars_replicate_zero

theorem digitsValue_append (ds es : List Char) :
    digitsValue (ds ++ es) = digitsValue ds * 10 ^ es.length + digitsValue es := by
  rw [digitsValue, Nat.ofDigitChars_append, Nat.ofDigitChars_eq_ofDigitChars_zero, Nat.mul_comm]
  rfl

theorem digitsValue_zeros_append (n : Nat) (ds : List Char) :
    digitsValue (List.replicate n '0' ++ ds) = digitsValue ds := by
  rw [digitsValue_append, digitsValue_replicate_zero, Nat.zero_mul, Nat.zero_add]

theorem digitsValue_cons (c : Char) (ds : List Char) :
    digitsValue (c :: ds) = (c.toNat - '0'.toNat) * 10 ^ ds.length + digitsValue ds := by
  rw [digitsValue, Nat.ofDigitChars_cons, Nat.ofDigitChars_eq_ofDigitChars_zero, Nat.mul_zero,
    Nat.zero_add, Nat.mul_comm]
  rfl

theorem toNat_of_isDigit {c : Char} (h : c.isDigit) : 48 ≤ c.toNat ∧ c.toNat ≤ 57 := by
  simp only [Char.isDigit, Bool.and_eq_true, decide_eq_true_eq] at h
  exact ⟨h.1, h.2⟩

theorem toDigits_digit {c : Char} (h : c.isDigit) :
    Nat.toDigits 10 (c.toNat - '0'.toNat) = [c] := by
  obtain ⟨hlow, hhigh⟩ := toNat_of_isDigit h
  have hlt : c.toNat - 48 < 10 := by omega
  refine (Nat.toDigits_of_lt_base hlt).trans (congrArg (fun d => [d]) (Char.toNat_inj.mp ?_))
  rw [Nat.toNat_digitChar_of_lt_ten hlt]
  omega

/-- So many digits stand for less than the power of ten with so many zeros. -/
theorem digitsValue_lt {ds : List Char} (h : ∀ c ∈ ds, c.isDigit) :
    digitsValue ds < 10 ^ ds.length := by
  induction ds with
  | nil => exact Nat.one_pos
  | cons c ds ih =>
    have hc : c.toNat - '0'.toNat ≤ 9 :=
      Nat.sub_le_sub_right (toNat_of_isDigit (h c List.mem_cons_self)).2 48
    have hds := ih fun c hc => h c (List.mem_cons_of_mem _ hc)
    have hmul := Nat.mul_le_mul_right (10 ^ ds.length) hc
    rw [digitsValue_cons, List.length_cons, Nat.pow_succ]
    omega

theorem isDigit_of_mem_toDigits {n : Nat} {c : Char} (h : c ∈ Nat.toDigits 10 n) : c.isDigit :=
  Nat.isDigit_of_mem_toDigits (by decide) (by decide) h

/-- Only zero is written with a zero in front. -/
theorem eq_nil_of_toDigits_eq_zero_cons {n : Nat} {ds : List Char}
    (h : Nat.toDigits 10 n = '0' :: ds) : ds = [] := by
  induction n using Nat.strongRecOn generalizing ds with
  | ind n ih =>
    by_cases hn : n < 10
    · rw [Nat.toDigits_of_lt_base hn] at h
      exact (List.cons.inj h).2.symm
    · rw [Nat.toDigits_of_base_le (by decide) (Nat.le_of_not_lt hn)] at h
      obtain ⟨c, cs, hcs⟩ :=
        List.exists_cons_of_ne_nil (Nat.toDigits_ne_nil (n := n / 10) (b := 10))
      rw [hcs, List.cons_append] at h
      obtain ⟨rfl, -⟩ := List.cons.inj h
      obtain rfl := ih (n / 10) (Nat.div_lt_self (by omega) (by decide)) hcs
      -- the number in front of the last digit would be zero
      have hzero := Nat.ofDigitChars_ten_toDigits (n := n / 10)
      rw [hcs] at hzero
      have : n / 10 = 0 := hzero.symm
      omega

/-- The numeral of a positive natural does not begin with a zero. -/
theorem exists_toDigits_eq_cons {n : Nat} (h : n ≠ 0) :
    ∃ c ds, Nat.toDigits 10 n = c :: ds ∧ c ≠ '0' := by
  obtain ⟨c, ds, hds⟩ := List.exists_cons_of_ne_nil (Nat.toDigits_ne_nil (n := n) (b := 10))
  refine ⟨c, ds, hds, ?_⟩
  rintro rfl
  obtain rfl := eq_nil_of_toDigits_eq_zero_cons hds
  have hvalue := digitsValue_toDigits n
  rw [hds] at hvalue
  exact h hvalue.symm

/-- Digits behind the numeral of a positive natural continue it. -/
theorem toDigits_append {n : Nat} (hn : 0 < n) {ds : List Char} (hds : ∀ c ∈ ds, c.isDigit) :
    Nat.toDigits 10 n ++ ds = Nat.toDigits 10 (Nat.ofDigitChars 10 ds n) := by
  induction ds generalizing n with
  | nil => exact List.append_nil _
  | cons c ds ih =>
    obtain ⟨hc, hds⟩ := List.forall_mem_cons.mp hds
    have hlt : c.toNat - '0'.toNat < 10 :=
      Nat.lt_succ_of_le (Nat.sub_le_sub_right (toNat_of_isDigit hc).2 48)
    have hnext := Nat.toDigits_append_toDigits (by decide) hn hlt
    rw [Nat.ofDigitChars_cons, ← ih (by omega) hds, ← hnext, toDigits_digit hc, List.append_assoc,
      List.singleton_append]

/-- The numeral of what digits denote is these digits, if the first of them is not a zero. -/
theorem toDigits_digitsValue {c : Char} {ds : List Char} (hds : ∀ d ∈ c :: ds, d.isDigit)
    (hc : c ≠ '0') : Nat.toDigits 10 (digitsValue (c :: ds)) = c :: ds := by
  obtain ⟨hdigit, hds⟩ := List.forall_mem_cons.mp hds
  have hpos : 0 < c.toNat - '0'.toNat := by
    have hlow := (toNat_of_isDigit hdigit).1
    have hne : c.toNat ≠ 48 := fun heq => hc (Char.toNat_inj.mp heq)
    exact Nat.sub_pos_of_lt (Nat.lt_of_le_of_ne hlow hne.symm)
  rw [digitsValue, Nat.ofDigitChars_cons, Nat.mul_zero, Nat.zero_add, ← toDigits_append hpos hds,
    toDigits_digit hdigit, List.singleton_append]

/-- How many digits a positive natural has. -/
theorem exists_length_toDigits {n : Nat} (h : n ≠ 0) :
    ∃ k, (Nat.toDigits 10 n).length = k + 1 ∧ 10 ^ k ≤ n ∧ n < 10 ^ (k + 1) := by
  obtain ⟨k, hk⟩ := Nat.exists_eq_add_of_lt (Nat.length_toDigits_pos (b := 10) (n := n))
  rw [Nat.zero_add] at hk
  refine ⟨k, hk, ?_, (Nat.length_toDigits_le_iff (by decide) (Nat.succ_pos k)).mp hk.le⟩
  by_contra hlt
  obtain rfl | hpos := Nat.eq_zero_or_pos k
  · exact hlt (Nat.one_le_iff_ne_zero.mpr h)
  · have := (Nat.length_toDigits_le_iff (by decide) hpos).mpr (Nat.lt_of_not_le hlt)
    omega

theorem toList_toString (i : Int) : (toString i).toList =
    if i < 0 then '-' :: Nat.toDigits 10 i.natAbs else Nat.toDigits 10 i.natAbs := by
  cases i with
  | ofNat n =>
    have hsign : ¬Int.ofNat n < 0 := Int.not_lt.mpr (Int.natCast_nonneg n)
    rw [Int.toString_eq_repr, Int.repr, if_neg hsign]
    exact Nat.toList_repr
  | negSucc n =>
    rw [Int.toString_eq_repr, Int.repr, if_pos (Int.negSucc_lt_zero n), String.toList_append,
      Nat.toList_repr]
    rfl

/-- Digits of which neither the first nor the last can be left out. -/
structure Significant (ds : List Char) : Prop where
  isDigit : ∀ c ∈ ds, c.isDigit
  head : ∃ c rest, ds = c :: rest ∧ c ≠ '0'
  last : ∃ front c, ds = front ++ [c] ∧ c ≠ '0'

theorem Significant.ne_nil {ds : List Char} (h : Significant ds) : ds ≠ [] := by
  obtain ⟨c, rest, rfl, -⟩ := h.head
  exact List.cons_ne_nil c rest

/-- Without zeros behind, digits do not denote a multiple of ten. -/
theorem Significant.not_ten_dvd {ds : List Char} (h : Significant ds) : ¬10 ∣ digitsValue ds := by
  obtain ⟨front, c, rfl, hc⟩ := h.last
  have hdigit := h.isDigit c (List.mem_append_right _ List.mem_cons_self)
  obtain ⟨hle, -⟩ := toNat_of_isDigit hdigit
  have hne : c.toNat ≠ 48 := fun heq => hc (Char.toNat_inj.mp heq)
  have hlt := @digitsValue_lt [c] (by simpa using hdigit)
  have hlast : digitsValue [c] = c.toNat - 48 := by simp [digitsValue_cons]
  rw [digitsValue_append, hlast]
  rw [hlast] at hlt
  simp only [List.length_singleton, Nat.pow_one] at hlt ⊢
  omega

namespace Decimal

/-- The digits of a decimal are those of its coefficient, up to zeros at the end. -/
theorem toDigits_coefficient (d : Decimal) :
    ∃ zeros, Nat.toDigits 10 d.coefficient = d.digits ++ List.replicate zeros '0' := by
  let isZero : Char → Bool := (· = '0')
  have hsplit : Nat.toDigits 10 d.coefficient =
      d.digits ++ (Nat.toDigits 10 d.coefficient).rtakeWhile isZero :=
    List.rdropWhile_append_rtakeWhile.symm
  have hzeros : ∀ c ∈ (Nat.toDigits 10 d.coefficient).rtakeWhile isZero, c = '0' :=
    fun c hc => of_decide_eq_true (List.mem_rtakeWhile_imp (p := isZero) hc)
  exact ⟨_, hsplit.trans (congrArg _ (List.eq_replicate_of_mem hzeros))⟩

theorem coefficient_eq {d : Decimal} {zeros : Nat}
    (h : Nat.toDigits 10 d.coefficient = d.digits ++ List.replicate zeros '0') :
    d.coefficient = digitsValue d.digits * 10 ^ zeros := by
  have hvalue := digitsValue_toDigits d.coefficient
  rw [h, digitsValue_append, List.length_replicate, digitsValue_replicate_zero] at hvalue
  exact hvalue.symm

theorem significant_digits {d : Decimal} (h : d.coefficient ≠ 0) : Significant d.digits := by
  obtain ⟨zeros, hzeros⟩ := d.toDigits_coefficient
  have hne : d.digits ≠ [] := by
    intro hnil
    rw [coefficient_eq hzeros, hnil] at h
    exact h (Nat.zero_mul _)
  refine ⟨fun c hc => ?_, ?_, ?_⟩
  · exact isDigit_of_mem_toDigits (hzeros ▸ List.mem_append_left _ hc)
  · obtain ⟨c, rest, hrest⟩ := List.exists_cons_of_ne_nil hne
    obtain ⟨c', ds, hds, hc'⟩ := exists_toDigits_eq_cons h
    rw [hzeros, hrest] at hds
    exact ⟨c, rest, hrest, (List.cons.inj hds).1 ▸ hc'⟩
  · refine ⟨d.digits.dropLast, d.digits.getLast hne, (List.dropLast_append_getLast hne).symm, ?_⟩
    exact fun hzero => List.rdropWhile_last_not (p := fun c => decide (c = '0')) _ hne
      (decide_eq_true hzero)

end Decimal
end NestedStyles

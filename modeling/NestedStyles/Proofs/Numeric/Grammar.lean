import Mathlib.Computability.RegularExpressions
import Mathlib.Tactic.IntervalCases
import NestedStyles.Proofs.Numeric.Digits
import NestedStyles.Proofs.Numeric.Numeral

/-!
# The grammar of numerals

A numeral is positional, or it has an exponent. It has no zero that could be left out: a whole
number does not begin with one unless it is zero, and a fraction does not end with one. The place of
the point decides which of the two a layout is (`LaidOut.mem_grammar`).
-/

namespace NestedStyles

open RegularExpression (char star)
open scoped Computability

namespace Grammar

/-- One of some characters. -/
def oneOf (cs : List Char) : RegularExpression Char := (cs.map char).sum

def optional (r : RegularExpression Char) : RegularExpression Char := 1 + r

def digit : RegularExpression Char := oneOf "0123456789".toList

def nonzeroDigit : RegularExpression Char := oneOf "123456789".toList

/-- The digits of a positive natural. -/
def positive : RegularExpression Char := nonzeroDigit * star digit

/-- A point and digits of which the last is not zero. -/
def fraction : RegularExpression Char := char '.' * star digit * nonzeroDigit

/-- A whole number and a fraction or none. -/
def positional : RegularExpression Char := (char '0' + positive) * optional fraction

/-- One digit, a fraction or none, and a power of ten. -/
def exponential (sign : Char) : RegularExpression Char :=
  nonzeroDigit * optional fraction * char 'e' * char sign * positive

def signed (r : RegularExpression Char) : RegularExpression Char := optional (char '-') * r

end Grammar

open Grammar

/-! ## Letters that no word has -/

/-- No word of the expression has the letter. -/
def Avoids (a : Char) (r : RegularExpression Char) : Prop := ∀ w ∈ r.matches', a ∉ w

section
variable {a b : Char} {r s : RegularExpression Char}

theorem avoids_char (h : a ≠ b) : Avoids a (char b) := by
  rintro w rfl ha
  exact h (List.mem_singleton.mp ha)

theorem avoids_oneOf {cs : List Char} (h : a ∉ cs) : Avoids a (oneOf cs) := by
  induction cs with
  | nil => exact fun w hw => absurd hw (Language.notMem_zero w)
  | cons c cs ih =>
    rw [List.mem_cons, not_or] at h
    rintro w (hw | hw)
    · exact avoids_char h.1 w hw
    · exact ih h.2 w hw

theorem Avoids.add (hr : Avoids a r) (hs : Avoids a s) : Avoids a (r + s) := by
  rintro w (hw | hw)
  · exact hr w hw
  · exact hs w hw

theorem Avoids.mul (hr : Avoids a r) (hs : Avoids a s) : Avoids a (r * s) := by
  intro w hw ha
  obtain ⟨u, hu, v, hv, rfl⟩ := Language.mem_mul.mp hw
  exact (List.mem_append.mp ha).elim (hr u hu) (hs v hv)

theorem Avoids.star (hr : Avoids a r) : Avoids a (star r) := by
  intro w hw ha
  obtain ⟨words, rfl, hwords⟩ := Language.mem_kstar.mp hw
  obtain ⟨word, hword, ha⟩ := List.mem_flatten.mp ha
  exact hr word (hwords word hword) ha

theorem Avoids.optional (hr : Avoids a r) : Avoids a (optional r) := by
  refine Avoids.add ?_ hr
  rintro w rfl
  exact List.not_mem_nil

end

/-- Positional numerals have no exponent. -/
theorem avoids_positional : Avoids 'e' (signed positional) := by
  have hdigit : Avoids 'e' digit := avoids_oneOf (by decide)
  have hnonzero : Avoids 'e' nonzeroDigit := avoids_oneOf (by decide)
  have hzero : Avoids 'e' (char '0') := avoids_char (by decide)
  have hminus : Avoids 'e' (char '-') := avoids_char (by decide)
  have hpoint : Avoids 'e' (char '.') := avoids_char (by decide)
  have hfraction : Avoids 'e' fraction := (hpoint.mul hdigit.star).mul hnonzero
  exact hminus.optional.mul ((hzero.add (hnonzero.mul hdigit.star)).mul hfraction.optional)

/-- Every word in exponent notation has an `e`. -/
theorem mem_of_exponential {sign : Char} {w : List Char}
    (h : w ∈ (signed (exponential sign)).matches') : 'e' ∈ w := by
  obtain ⟨minus, -, unsigned, hunsigned, rfl⟩ := Language.mem_mul.mp h
  obtain ⟨front, hfront, power, -, rfl⟩ := Language.mem_mul.mp hunsigned
  obtain ⟨marked, hmarked, mark, -, rfl⟩ := Language.mem_mul.mp hfront
  obtain ⟨mantissa, -, e, rfl, rfl⟩ := Language.mem_mul.mp hmarked
  simp

/-! ## Words of the grammar -/

section
variable {c : Char} {cs ds : List Char}

theorem mem_oneOf (h : c ∈ cs) : [c] ∈ (oneOf cs).matches' := by
  induction cs with
  | nil => cases h
  | cons a cs ih =>
    rcases List.mem_cons.mp h with rfl | h
    · exact .inl rfl
    · exact .inr (ih h)

theorem mem_digit (h : c.isDigit) : [c] ∈ digit.matches' := by
  refine mem_oneOf ?_
  obtain ⟨hlow, hhigh⟩ := toNat_of_isDigit h
  rw [← Char.ofNat_toNat c]
  generalize c.toNat = n at *
  interval_cases n <;> decide

theorem mem_nonzeroDigit (h : c.isDigit) (h0 : c ≠ '0') : [c] ∈ nonzeroDigit.matches' := by
  refine mem_oneOf ?_
  obtain ⟨hlow, hhigh⟩ := toNat_of_isDigit h
  rw [← Char.ofNat_toNat c] at h0 ⊢
  generalize c.toNat = n at *
  interval_cases n <;> first | decide | exact absurd rfl h0

theorem mem_star_digit (h : ∀ c ∈ ds, c.isDigit) : ds ∈ (star digit).matches' := by
  refine Language.mem_kstar.mpr ⟨ds.map fun c => [c], ?_, ?_⟩
  · rw [← List.flatMap_def, List.flatMap_singleton']
  · intro w hw
    obtain ⟨c, hc, rfl⟩ := List.mem_map.mp hw
    exact mem_digit (h c hc)

theorem mem_positive (hc : c.isDigit) (h0 : c ≠ '0') (hds : ∀ c ∈ ds, c.isDigit) :
    c :: ds ∈ positive.matches' :=
  Language.append_mem_mul (a := [c]) (mem_nonzeroDigit hc h0) (mem_star_digit hds)

theorem isDigit_of_mem_zeros {zeros : Nat} : ∀ c ∈ List.replicate zeros '0', c.isDigit := by
  intro c hc
  obtain rfl := List.eq_of_mem_replicate hc
  rfl

/-- Behind the point stand the last digits, after zeros or not. -/
theorem Significant.mem_fraction (whole : List Char) {part : List Char}
    (h : Significant (whole ++ part)) (hpart : part ≠ [])
    (zeros : Nat) : '.' :: (List.replicate zeros '0' ++ part) ∈ fraction.matches' := by
  obtain ⟨front, last, hlast, h0⟩ := h.last
  obtain ⟨middle, rfl⟩ : ∃ middle, part = middle ++ [last] := by
    refine ⟨part.dropLast, ?_⟩
    have heq : part.getLast hpart = last := by
      rw [← List.getLast_append_of_ne_nil (l := whole) (by simp [hpart]) hpart]
      simp [hlast]
    rw [← heq, List.dropLast_append_getLast]
  have hdigits := (List.forall_mem_append.mp h.isDigit).2
  obtain ⟨hmiddle, hsingle⟩ := List.forall_mem_append.mp hdigits
  rw [← List.append_assoc]
  refine Language.append_mem_mul (a := '.' :: (List.replicate zeros '0' ++ middle)) ?_
    (mem_nonzeroDigit (hsingle last List.mem_cons_self) h0)
  refine Language.append_mem_mul (a := ['.']) rfl (mem_star_digit ?_)
  exact List.forall_mem_append.mpr ⟨isDigit_of_mem_zeros, hmiddle⟩

theorem mem_optional {r : RegularExpression Char} {w : List Char} (h : w ∈ r.matches') :
    w ∈ (optional r).matches' :=
  .inr h

theorem nil_mem_optional (r : RegularExpression Char) : [] ∈ (optional r).matches' := .inl rfl

theorem mem_signed {r : RegularExpression Char} {w : List Char} (h : w ∈ r.matches')
    (negative : Bool) : (if negative then '-' :: w else w) ∈ (signed r).matches' := by
  cases negative with
  | false => exact Language.append_mem_mul (nil_mem_optional _) h
  | true => exact Language.append_mem_mul (a := ['-']) (mem_optional rfl) h

/-- The place of the point decides on the form of the numeral. -/
theorem LaidOut.mem_grammar {point : Int} (h : LaidOut ds point cs) (hds : Significant ds) :
    -6 < point ∧ point ≤ 21 ∧ cs ∈ positional.matches' ∨
      21 < point ∧ cs ∈ (exponential '+').matches' ∨
      point ≤ -6 ∧ cs ∈ (exponential '-').matches' := by
  obtain ⟨lead, rest, hlead, h0⟩ := hds.head
  have hdigit : lead.isDigit := hds.isDigit lead (hlead ▸ List.mem_cons_self)
  cases h with
  | @padded ds zeros hrange =>
    refine .inl ⟨by omega, by omega, ?_⟩
    subst hlead
    rw [← List.append_nil (_ ++ _)]
    refine Language.append_mem_mul (.inr (mem_positive hdigit h0 ?_)) (nil_mem_optional _)
    exact List.forall_mem_append.mpr
      ⟨fun c hc => hds.isDigit c (List.mem_cons_of_mem _ hc), isDigit_of_mem_zeros⟩
  | @parted whole part hwhole hpart hrange =>
    refine .inl ⟨by omega, by omega, ?_⟩
    obtain ⟨c, whole, rfl⟩ := List.exists_cons_of_ne_nil hwhole
    obtain ⟨rfl, -⟩ := List.cons.inj hlead
    refine Language.append_mem_mul (.inr (mem_positive hdigit h0 fun c hc => ?_))
      (mem_optional (hds.mem_fraction (c :: whole) hpart 0))
    exact hds.isDigit c (List.mem_cons_of_mem _ (List.mem_append_left _ hc))
  | @small ds zeros hrange =>
    refine .inl ⟨by omega, by omega, ?_⟩
    refine Language.append_mem_mul (a := ['0']) (.inl rfl) (mem_optional ?_)
    exact hds.mem_fraction [] hds.ne_nil zeros
  | @power c part point hrange =>
    obtain ⟨rfl, -⟩ := List.cons.inj hlead
    have hpart : (if part.isEmpty then [] else '.' :: part) ∈ (optional fraction).matches' := by
      cases part with
      | nil => exact nil_mem_optional _
      | cons d part => exact mem_optional (hds.mem_fraction [c] (List.cons_ne_nil d part) 0)
    obtain ⟨d, ds, hpower, hd⟩ := exists_toDigits_eq_cons (n := (point - 1).natAbs) (by omega)
    have hpositive : Nat.toDigits 10 (point - 1).natAbs ∈ positive.matches' := by
      have hall : ∀ c ∈ d :: ds, c.isDigit := fun c hc => isDigit_of_mem_toDigits (hpower ▸ hc)
      rw [hpower]
      exact mem_positive (hall d List.mem_cons_self) hd
        fun c hc => hall c (List.mem_cons_of_mem d hc)
    have hform (sign : Char) : [c] ++ (if part.isEmpty then [] else '.' :: part) ++ ['e'] ++
        [sign] ++ Nat.toDigits 10 (point - 1).natAbs ∈ (exponential sign).matches' :=
      Language.append_mem_mul (Language.append_mem_mul (Language.append_mem_mul
        (Language.append_mem_mul (mem_nonzeroDigit hdigit h0) hpart) rfl) rfl) hpositive
    rcases hrange with hlow | hhigh
    · rw [if_pos (show point ≤ 0 by omega)]
      exact .inr (.inr ⟨hlow, by simpa using hform '-'⟩)
    · rw [if_neg (show ¬point ≤ 0 by omega)]
      exact .inr (.inl ⟨hhigh, by simpa using hform '+'⟩)

end
end NestedStyles

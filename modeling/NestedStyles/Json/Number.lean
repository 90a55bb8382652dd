import NestedStyles.Json.Basic
import NestedStyles.Json.Reader

/-!
# Numbers

A number is read through a 64-bit significand: digits that no longer fit are dropped, and count
towards the exponent if they stand before the point. A number with neither point nor exponent nor
dropped digits is whole and exact. Every other number is its significand, rounded to a double and
then multiplied or divided by a power of ten, each step rounded once.
-/

namespace NestedStyles
namespace Json

/-- The largest significand that is kept. -/
def significandLimit : Nat := 0xFFFFFFFFFFFFFFFF

/-- The largest exponent that is told apart. -/
def exponentLimit : Nat := 0x7FFFFFFF

/-- The values of the digits at the front of a text. -/
def leadingDigits (text : List Char) : List Nat :=
  (text.takeWhile Char.isDigit).map fun c => c.toNat - '0'.toNat

/-- What stands behind the digits at the front of a text. -/
def skipDigits (text : List Char) : List Char := text.dropWhile Char.isDigit

theorem length_skipDigits_le (text : List Char) : (skipDigits text).length ≤ text.length :=
  (List.dropWhile_suffix _).length_le

/-- Append digits to a number while it stays within a limit. The second result counts the digits
left over. -/
def gather (limit n : Nat) : List Nat → Nat × Nat
  | [] => (n, 0)
  | d :: digits =>
    if limit < n * 10 + d then (n, digits.length + 1) else gather limit (n * 10 + d) digits

/-- What the digits before the point give: a significand, and how many of them were dropped. A
leading zero stands alone. -/
def readWhole : List Char → Except Failure ((Nat × Nat) × List Char)
  | [] => failAt .endInValue []
  | c :: rest =>
    if !c.isDigit then failAt .invalidNumber (c :: rest)
    else if c = '0' && rest.head?.any Char.isDigit then failAt .invalidNumber rest
    else .ok (gather significandLimit 0 (leadingDigits (c :: rest)), skipDigits (c :: rest))

/-- What a point and its digits make of a significand, with the number of digits that were added;
without a point nothing. -/
def readFraction (significand : Nat) :
    List Char → Except Failure ((Nat × Option Nat) × List Char)
  | '.' :: rest =>
    let digits := leadingDigits rest
    if digits.isEmpty then
      failAt (if rest.isEmpty then .endInValue else .invalidNumber) rest
    else
      let (significand, dropped) := gather significandLimit significand digits
      .ok ((significand, some (digits.length - dropped)), skipDigits rest)
  | text => .ok ((significand, none), text)

/-- What is known of the power of ten behind a number. -/
inductive Exponent
  | absent
  | power (value : Int)
  /-- Past the limit, where the number is zero: too small, or with a significand of zero. -/
  | vanishing
deriving DecidableEq, Repr

/-- The sign in front of an exponent: whether it is a minus, and the rest. -/
def exponentSign : List Char → Bool × List Char
  | '-' :: rest => (true, rest)
  | '+' :: rest => (false, rest)
  | text => (false, text)

/-- The exponent of a number, read from behind its `e`. -/
def readPower (significand : Nat) (text : List Char) : Except Failure (Exponent × List Char) :=
  let (negative, text) := exponentSign text
  let digits := leadingDigits text
  let rest := skipDigits text
  if digits.isEmpty then
    failAt (if text.isEmpty then .endInValue else .invalidNumber) text
  else
    let (power, dropped) := gather exponentLimit 0 digits
    if dropped = 0 then .ok (.power (if negative then -power else power), rest)
    else if significand = 0 || negative then .ok (.vanishing, rest)
    else .error ⟨.numberOutOfRange, byteSize rest + (dropped - 1)⟩

/-- The exponent of a number, if an `e` begins one here. -/
def readExponent (significand : Nat) : List Char → Except Failure (Exponent × List Char)
  | [] => .ok (.absent, [])
  | c :: rest =>
    if c = 'e' || c = 'E' then readPower significand rest else .ok (.absent, c :: rest)

/-- The double closest to a power of ten. -/
def powerOfTen (n : Nat) : Binary64 := .ofInt (Nat.pow 10 n)

/-- `x * 10 ^ e` by one operation where the power is a double, after as many divisions by
`10 ^ 308` as it takes to get there. `none` is out of range. -/
def scale (x : Binary64) (e : Int) : Option Binary64 :=
  if e.natAbs ≤ 308 then
    if 0 ≤ e then
      let y := x * powerOfTen e.natAbs
      if y.isInfinite then none else some y
    else some (x / powerOfTen e.natAbs)
  else if x.rank = 0 then some x
  else if 0 ≤ e then none
  else scale (x / powerOfTen 308) (e + 308)
termination_by (-e).toNat

/-- A double with the sign of the number it belongs to. -/
def signed (negative : Bool) (x : Binary64) : Binary64 := if negative then -x else x

/-- A whole number. Zero keeps its sign, which only a double can hold. -/
def wholeNumber (negative : Bool) (significand : Nat) : Number :=
  if negative then
    if significand = 0 then .float (.zero true) else .integer (-significand)
  else .integer significand

/-- A number, read from behind its sign. -/
def readNumber (negative : Bool) (text : List Char) : Except Failure (Number × List Char) := do
  let ((whole, dropped), rest) ← readWhole text
  let ((significand, places), rest) ← readFraction whole rest
  let (exponent, rest) ← readExponent significand rest
  match exponent, places, dropped with
  | .vanishing, _, _ => .ok (.float (.zero negative), rest)
  | .absent, none, 0 => .ok (wholeNumber negative significand, rest)
  | _, _, _ =>
    let power := match exponent with
      | .power e => e
      | _ => 0
    match scale (.ofInt significand) (dropped - places.getD 0 + power) with
    | some x => .ok (.float (signed negative x), rest)
    | none => failBefore .numberOutOfRange rest

theorem length_readWhole_lt {text rest : List Char} {found : Nat × Nat}
    (h : readWhole text = .ok (found, rest)) : rest.length < text.length := by
  cases text with
  | nil => cases h
  | cons c text =>
    rw [readWhole] at h
    split at h
    · cases h
    · rename_i hc
      split at h
      · cases h
      · obtain ⟨-, rfl⟩ := Prod.mk.inj (Except.ok.inj h)
        simp only [Bool.not_eq_true, Bool.not_eq_false'] at hc
        simpa [skipDigits, hc] using Nat.lt_succ_of_le (length_skipDigits_le text)

theorem length_readFraction_le {significand : Nat} {text rest : List Char}
    {found : Nat × Option Nat} (h : readFraction significand text = .ok (found, rest)) :
    rest.length ≤ text.length := by
  unfold readFraction at h
  split at h
  · dsimp only at h
    split at h
    · cases h
    · obtain ⟨-, rfl⟩ := Prod.mk.inj (Except.ok.inj h)
      exact Nat.le_succ_of_le (length_skipDigits_le _)
  · obtain ⟨-, rfl⟩ := Prod.mk.inj (Except.ok.inj h)
    exact Nat.le_refl _

theorem length_exponentSign_le (text : List Char) :
    (exponentSign text).2.length ≤ text.length := by
  unfold exponentSign
  split <;> simp

theorem length_readPower_le {significand : Nat} {text rest : List Char} {found : Exponent}
    (h : readPower significand text = .ok (found, rest)) : rest.length ≤ text.length := by
  have hle := Nat.le_trans (length_skipDigits_le (exponentSign text).2)
    (length_exponentSign_le text)
  unfold readPower at h
  dsimp only at h
  split at h
  · cases h
  split at h
  · obtain ⟨-, rfl⟩ := Prod.mk.inj (Except.ok.inj h)
    exact hle
  split at h
  · obtain ⟨-, rfl⟩ := Prod.mk.inj (Except.ok.inj h)
    exact hle
  · cases h

theorem length_readExponent_le {significand : Nat} {text rest : List Char} {found : Exponent}
    (h : readExponent significand text = .ok (found, rest)) : rest.length ≤ text.length := by
  cases text with
  | nil => cases h; exact Nat.le_refl _
  | cons c text =>
    rw [readExponent] at h
    split at h
    · exact Nat.le_succ_of_le (length_readPower_le h)
    · obtain ⟨-, rfl⟩ := Prod.mk.inj (Except.ok.inj h)
      exact Nat.le_refl _

theorem length_readNumber_lt {negative : Bool} {text rest : List Char} {found : Number}
    (h : readNumber negative text = .ok (found, rest)) : rest.length < text.length := by
  obtain ⟨⟨_, r₁⟩, h₁, h⟩ := bind_eq_ok.mp h
  obtain ⟨⟨_, r₂⟩, h₂, h⟩ := bind_eq_ok.mp h
  obtain ⟨⟨_, r₃⟩, h₃, h⟩ := bind_eq_ok.mp h
  have hr₁ := length_readWhole_lt h₁
  have hr₂ := length_readFraction_le h₂
  have hr₃ := length_readExponent_le h₃
  suffices rest = r₃ by subst this; omega
  dsimp only at h
  split at h
  · exact (Prod.mk.inj (Except.ok.inj h)).2.symm
  · exact (Prod.mk.inj (Except.ok.inj h)).2.symm
  · split at h
    · exact (Prod.mk.inj (Except.ok.inj h)).2.symm
    · cases h

end Json
end NestedStyles

import NestedStyles.Json.Error

/-!
# Readers

A reading step looks at the front of a text and gives what it found with the rest of the text. A
`Reader` is a step that always takes something, which is what makes a sequence of readings end.
-/

namespace NestedStyles
namespace Json

/-- A step after whose success the rest is shorter. -/
structure Reader (α : Type) where
  read : List Char → Except Failure (α × List Char)
  consumes : ∀ {text found rest}, read text = .ok (found, rest) → rest.length < text.length

/-- Fail at the front of `rest`: just behind its first byte, or at the end of the text. -/
def failAt (cause : Cause) (rest : List Char) : Except Failure α :=
  .error ⟨cause, byteSize rest - 1⟩

/-- Fail in front of `rest`. -/
def failBefore (cause : Cause) (rest : List Char) : Except Failure α :=
  .error ⟨cause, byteSize rest⟩

theorem bind_eq_ok {x : Except ε α} {f : α → Except ε β} {b : β} :
    (x >>= f) = .ok b ↔ ∃ a, x = .ok a ∧ f a = .ok b := by
  cases x <;> simp [bind, Except.bind]

/-- The four characters that may stand between tokens. -/
def isSpace (c : Char) : Bool := c = ' ' || c = '\n' || c = '\t' || c = '\r'

def skipSpace (text : List Char) : List Char := text.dropWhile isSpace

theorem length_skipSpace_le (text : List Char) : (skipSpace text).length ≤ text.length :=
  (List.dropWhile_suffix _).length_le

/-- The rest of a text behind the letters `expected`. -/
def readWord : List Char → List Char → Except Failure (List Char)
  | [], text => .ok text
  | _ :: _, [] => failAt .endInValue []
  | e :: expected, c :: text =>
    if c = e then readWord expected text else failAt .expectedIdent (c :: text)

theorem length_readWord_le {expected text rest : List Char}
    (h : readWord expected text = .ok rest) : rest.length ≤ text.length := by
  induction expected generalizing text with
  | nil => cases h; exact Nat.le_refl _
  | cons e expected ih =>
    cases text with
    | nil => cases h
    | cons c text =>
      rw [readWord] at h
      split at h
      · exact Nat.le_succ_of_le (ih h)
      · cases h

end Json
end NestedStyles

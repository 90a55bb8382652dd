import NestedStyles.Json.Reader

/-!
# Strings

The characters of a string up to its closing quote. A character outside of the basic plane may be
escaped as a pair of surrogates; half a pair is refused.
-/

namespace NestedStyles
namespace Json

def hexDigit? (c : Char) : Option Nat :=
  if '0' ≤ c ∧ c ≤ '9' then some (c.toNat - '0'.toNat)
  else if 'a' ≤ c ∧ c ≤ 'f' then some (c.toNat - 'a'.toNat + 10)
  else if 'A' ≤ c ∧ c ≤ 'F' then some (c.toNat - 'A'.toNat + 10)
  else none

/-- Four hexadecimal digits. Four bytes are taken before they are looked at. -/
def readHexQuad (text : List Char) : Except Failure (Nat × List Char) :=
  if byteSize (text.take 4) < 4 then failAt .endInString []
  else
    match text with
    | a :: b :: c :: d :: rest =>
      match hexDigit? a, hexDigit? b, hexDigit? c, hexDigit? d with
      | some a, some b, some c, some d => .ok (((a * 16 + b) * 16 + c) * 16 + d, rest)
      | _, _, _, _ => .error ⟨.invalidEscape, byteSize text - 4⟩
    | _ => .error ⟨.invalidEscape, byteSize text - 4⟩

/-- Whether a unit of UTF-16 is half a character. -/
def isSurrogate (unit : Nat) : Bool := 0xD800 ≤ unit && unit ≤ 0xDFFF

/-- Whether a unit of UTF-16 is the second half of a character. -/
def isTrailing (unit : Nat) : Bool := 0xDC00 ≤ unit && unit ≤ 0xDFFF

/-- The character of a pair of surrogates. -/
def ofSurrogates (leading trailing : Nat) : Char :=
  Char.ofNat (0x10000 + (leading - 0xD800) * 0x400 + (trailing - 0xDC00))

/-- The rest behind `expected`, inside of a pair of escapes. -/
def readPairLink (expected : Char) : List Char → Except Failure (List Char)
  | [] => failAt .endInString []
  | c :: rest => if c = expected then .ok rest else failAt .endOfHexEscape (c :: rest)

/-- The character that `\u` and its digits stand for, read from behind the `u`. -/
def readUnicodeEscape (text : List Char) : Except Failure (Char × List Char) := do
  let (unit, rest) ← readHexQuad text
  if isTrailing unit then failBefore .loneSurrogate rest
  else if isSurrogate unit then
    let rest ← readPairLink '\\' rest
    let rest ← readPairLink 'u' rest
    let (trailing, rest) ← readHexQuad rest
    if isTrailing trailing then .ok (ofSurrogates unit trailing, rest)
    else failBefore .loneSurrogate rest
  else .ok (Char.ofNat unit, rest)

/-- The escapes of one letter, with the characters they stand for. -/
def letterEscapes : List (Char × Char) :=
  [('"', '"'), ('\\', '\\'), ('/', '/'), ('b', '\x08'), ('f', '\x0c'), ('n', '\n'), ('r', '\r'),
    ('t', '\t')]

/-- The character that an escape stands for, read from behind the backslash. -/
def readEscape : List Char → Except Failure (Char × List Char)
  | [] => failAt .endInString []
  | c :: rest =>
    if c = 'u' then readUnicodeEscape rest
    else
      match letterEscapes.lookup c with
      | some e => .ok (e, rest)
      | none => failAt .invalidEscape (c :: rest)

theorem length_readHexQuad_lt {text rest : List Char} {unit : Nat}
    (h : readHexQuad text = .ok (unit, rest)) : rest.length < text.length := by
  unfold readHexQuad at h
  split at h
  · cases h
  · split at h
    · split at h
      · cases h; simp; omega
      · cases h
    · cases h

theorem length_readPairLink_lt {expected : Char} {text rest : List Char}
    (h : readPairLink expected text = .ok rest) : rest.length < text.length := by
  cases text with
  | nil => cases h
  | cons c text =>
    rw [readPairLink] at h
    split at h
    · cases h; simp
    · cases h

theorem length_readUnicodeEscape_lt {text rest : List Char} {c : Char}
    (h : readUnicodeEscape text = .ok (c, rest)) : rest.length < text.length := by
  obtain ⟨⟨unit, r₁⟩, h₁, h⟩ := bind_eq_ok.mp h
  have hr₁ := length_readHexQuad_lt h₁
  dsimp only at h
  split at h
  · cases h
  split at h
  · obtain ⟨r₂, h₂, h⟩ := bind_eq_ok.mp h
    obtain ⟨r₃, h₃, h⟩ := bind_eq_ok.mp h
    obtain ⟨⟨trailing, r₄⟩, h₄, h⟩ := bind_eq_ok.mp h
    have hr₂ := length_readPairLink_lt h₂
    have hr₃ := length_readPairLink_lt h₃
    have hr₄ := length_readHexQuad_lt h₄
    dsimp only at h
    split at h
    · obtain ⟨-, rfl⟩ := Prod.mk.inj (Except.ok.inj h)
      omega
    · cases h
  · obtain ⟨-, rfl⟩ := Prod.mk.inj (Except.ok.inj h)
    exact hr₁

theorem length_readEscape_lt {text rest : List Char} {c : Char}
    (h : readEscape text = .ok (c, rest)) : rest.length < text.length := by
  cases text with
  | nil => cases h
  | cons e text =>
    rw [readEscape] at h
    split at h
    · exact Nat.lt_succ_of_lt (length_readUnicodeEscape_lt h)
    · split at h
      · cases h; simp
      · cases h

/-- The characters of a string, read from behind its opening quote. -/
def readCharacters : List Char → Except Failure (List Char × List Char)
  | [] => failAt .endInString []
  | c :: text =>
    if c = '"' then .ok ([], text)
    else if c = '\\' then
      match _h : readEscape text with
      | .error failure => .error failure
      | .ok (e, rest) =>
        match readCharacters rest with
        | .error failure => .error failure
        | .ok (cs, rest) => .ok (e :: cs, rest)
    else if c.toNat < 0x20 then failAt .controlCharacter (c :: text)
    else
      match readCharacters text with
      | .error failure => .error failure
      | .ok (cs, rest) => .ok (c :: cs, rest)
termination_by text => text.length
decreasing_by
  · exact Nat.lt_succ_of_lt (length_readEscape_lt _h)
  · simp

theorem length_readCharacters_lt {text rest cs : List Char}
    (h : readCharacters text = .ok (cs, rest)) : rest.length < text.length := by
  fun_induction readCharacters text generalizing cs rest with
  | case1 | case3 | case4 | case6 | case7 => cases h
  | case2 => cases h; simp
  | case5 text e r h₁ cs' r' h₂ _ ih =>
    cases h
    have := length_readEscape_lt h₁
    have := ih h₂
    simp; omega
  | case8 c text _ _ _ cs' r h₂ ih =>
    cases h
    have := ih h₂
    simp; omega

end Json
end NestedStyles

import NestedStyles.Json.Number
import NestedStyles.Json.Text

/-!
# Values

`value depth` reads one value in which at most `depth` brackets are open at once. The loop over
the items of a list or an object is `readItems`, the same for both; they differ in their closing
bracket, in two errors, and in what an item is.
-/

namespace NestedStyles
namespace Json

/-- What tells a list from an object. -/
structure Bracket where
  close : Char
  /-- At the end of the text. -/
  unclosed : Cause
  /-- At a character that neither goes on nor closes. -/
  unexpected : Cause

def Bracket.list : Bracket := ⟨']', .endInList, .expectedCommaOrBracket⟩

def Bracket.object : Bracket := ⟨'\x7d', .endInObject, .expectedCommaOrBrace⟩

/-- One or more items with commas between them, and the closing bracket. -/
def readItems (bracket : Bracket) (item : Reader α) (text : List Char) :
    Except Failure (List α × List Char) :=
  match _h : item.read text with
  | .error failure => .error failure
  | .ok (found, behind) =>
    match _h' : skipSpace behind with
    | [] => failAt bracket.unclosed []
    | c :: rest =>
      if c = bracket.close then .ok ([found], rest)
      else if c = ',' then
        if (skipSpace rest).head? = some bracket.close then failAt .trailingComma (skipSpace rest)
        else
          match readItems bracket item rest with
          | .error failure => .error failure
          | .ok (items, rest) => .ok (found :: items, rest)
      else failAt bracket.unexpected (c :: rest)
termination_by text.length
decreasing_by
  have h₁ := item.consumes _h
  have h₂ := length_skipSpace_le behind
  rw [_h', List.length_cons] at h₂
  omega

/-- Any number of items, read from behind the opening bracket. -/
def readBracket (bracket : Bracket) (item : Reader α) (text : List Char) :
    Except Failure (List α × List Char) :=
  match skipSpace text with
  | [] => failAt bracket.unclosed []
  | c :: rest =>
    if c = bracket.close then .ok ([], rest) else readItems bracket item (c :: rest)

/-- The rest behind the colon of a member. -/
def readColon (text : List Char) : Except Failure (List Char) :=
  match skipSpace text with
  | [] => failAt .endInObject []
  | c :: rest => if c = ':' then .ok rest else failAt .expectedColon (c :: rest)

/-- A member of an object: a key, which is a string, a colon and a value. -/
def readMember (value : Reader Json) (text : List Char) :
    Except Failure ((String × Json) × List Char) :=
  match skipSpace text with
  | [] => failAt .endInValue []
  | c :: rest =>
    if c = '"' then do
      let (key, rest) ← readCharacters rest
      let rest ← readColon rest
      let (found, rest) ← value.read rest
      .ok ((String.ofList key, found), rest)
    else failAt .keyNotString (c :: rest)

theorem length_readItems_lt {bracket : Bracket} {item : Reader α} {text rest : List Char}
    {found : List α} (h : readItems bracket item text = .ok (found, rest)) :
    rest.length < text.length := by
  fun_induction readItems bracket item text generalizing found rest with
  | case1 | case2 | case4 | case5 | case7 => cases h
  | case3 text a r h₁ r' h₂ =>
    obtain ⟨-, rfl⟩ := Prod.mk.inj (Except.ok.inj h)
    have := item.consumes h₁
    have := length_skipSpace_le r
    rw [h₂, List.length_cons] at this
    omega
  | case6 text a r h₁ r' _ as r'' h₃ h₂ _ ih =>
    obtain ⟨-, rfl⟩ := Prod.mk.inj (Except.ok.inj h)
    have := item.consumes h₁
    have := length_skipSpace_le r
    rw [h₂, List.length_cons] at this
    have := ih h₃
    omega

theorem length_readBracket_lt {bracket : Bracket} {item : Reader α} {text rest : List Char}
    {found : List α} (h : readBracket bracket item text = .ok (found, rest)) :
    rest.length < text.length := by
  unfold readBracket at h
  have hle := length_skipSpace_le text
  split at h
  · cases h
  · rename_i c r hskip
    rw [hskip, List.length_cons] at hle
    split at h
    · obtain ⟨-, rfl⟩ := Prod.mk.inj (Except.ok.inj h)
      omega
    · have := length_readItems_lt h
      simp only [List.length_cons] at this
      omega

theorem length_readColon_lt {text rest : List Char} (h : readColon text = .ok rest) :
    rest.length < text.length := by
  unfold readColon at h
  have hle := length_skipSpace_le text
  split at h
  · cases h
  · rename_i c r hskip
    rw [hskip, List.length_cons] at hle
    split at h
    · cases h; omega
    · cases h

theorem length_readMember_lt {value : Reader Json} {text rest : List Char} {found : String × Json}
    (h : readMember value text = .ok (found, rest)) : rest.length < text.length := by
  unfold readMember at h
  have hle := length_skipSpace_le text
  split at h
  · cases h
  · rename_i c r hskip
    rw [hskip, List.length_cons] at hle
    split at h
    · obtain ⟨⟨_, r₁⟩, h₁, h⟩ := bind_eq_ok.mp h
      obtain ⟨r₂, h₂, h⟩ := bind_eq_ok.mp h
      obtain ⟨⟨_, r₃⟩, h₃, h⟩ := bind_eq_ok.mp h
      obtain ⟨-, rfl⟩ := Prod.mk.inj (Except.ok.inj h)
      have := length_readCharacters_lt h₁
      have := length_readColon_lt h₂
      have := value.consumes h₃
      omega
    · cases h

/-- The reader of one member, with values read by the given reader. -/
def member (value : Reader Json) : Reader (String × Json) :=
  ⟨readMember value, length_readMember_lt⟩

/-- A value that starts with `c`. The reader for the values inside is missing where no further
bracket may be opened. -/
def readFrom (inner : Option (Reader Json)) (c : Char) (rest : List Char) :
    Except Failure (Json × List Char) :=
  if c = 'n' then do
    let rest ← readWord ['u', 'l', 'l'] rest
    .ok (.null, rest)
  else if c = 't' then do
    let rest ← readWord ['r', 'u', 'e'] rest
    .ok (.boolean true, rest)
  else if c = 'f' then do
    let rest ← readWord ['a', 'l', 's', 'e'] rest
    .ok (.boolean false, rest)
  else if c = '"' then do
    let (characters, rest) ← readCharacters rest
    .ok (.string (String.ofList characters), rest)
  else if c = '-' then do
    let (n, rest) ← readNumber true rest
    .ok (.number n, rest)
  else if c.isDigit then do
    let (n, rest) ← readNumber false (c :: rest)
    .ok (.number n, rest)
  else if c = '[' then
    match inner with
    | none => failAt .recursionLimit (c :: rest)
    | some value => do
      let (elements, rest) ← readBracket .list value rest
      .ok (.array elements, rest)
  else if c = '\x7b' then
    match inner with
    | none => failAt .recursionLimit (c :: rest)
    | some value => do
      let (members, rest) ← readBracket .object (member value) rest
      .ok (.object members, rest)
  else failAt .expectedValue (c :: rest)

/-- A value behind any space. What is inside of its bracket is read by the given reader. -/
def readValue (inner : Option (Reader Json)) (text : List Char) :
    Except Failure (Json × List Char) :=
  match skipSpace text with
  | [] => failAt .endInValue []
  | c :: rest => readFrom inner c rest

theorem length_readFrom_le {inner : Option (Reader Json)} {c : Char} {text rest : List Char}
    {found : Json} (h : readFrom inner c text = .ok (found, rest)) :
    rest.length ≤ text.length := by
  unfold readFrom at h
  split at h
  · obtain ⟨r, h₁, h⟩ := bind_eq_ok.mp h
    cases h
    exact length_readWord_le h₁
  split at h
  · obtain ⟨r, h₁, h⟩ := bind_eq_ok.mp h
    cases h
    exact length_readWord_le h₁
  split at h
  · obtain ⟨r, h₁, h⟩ := bind_eq_ok.mp h
    cases h
    exact length_readWord_le h₁
  split at h
  · obtain ⟨⟨_, r⟩, h₁, h⟩ := bind_eq_ok.mp h
    cases h
    exact Nat.le_of_lt (length_readCharacters_lt h₁)
  split at h
  · obtain ⟨⟨_, r⟩, h₁, h⟩ := bind_eq_ok.mp h
    cases h
    exact Nat.le_of_lt (length_readNumber_lt h₁)
  split at h
  · obtain ⟨⟨_, r⟩, h₁, h⟩ := bind_eq_ok.mp h
    cases h
    exact Nat.le_of_lt_succ (length_readNumber_lt h₁)
  split at h
  · split at h
    · cases h
    · obtain ⟨⟨_, r⟩, h₁, h⟩ := bind_eq_ok.mp h
      cases h
      exact Nat.le_of_lt (length_readBracket_lt h₁)
  split at h
  · split at h
    · cases h
    · obtain ⟨⟨_, r⟩, h₁, h⟩ := bind_eq_ok.mp h
      cases h
      exact Nat.le_of_lt (length_readBracket_lt h₁)
  · cases h

theorem length_readValue_lt {inner : Option (Reader Json)} {text rest : List Char} {found : Json}
    (h : readValue inner text = .ok (found, rest)) : rest.length < text.length := by
  unfold readValue at h
  have hle := length_skipSpace_le text
  split at h
  · cases h
  · rename_i c r hskip
    rw [hskip, List.length_cons] at hle
    have := length_readFrom_le h
    omega

/-- One value, in which at most `depth` brackets are open at once. -/
def value (depth : Nat) : Reader Json :=
  ⟨readValue (match depth with
    | 0 => none
    | depth + 1 => some (value depth)), length_readValue_lt⟩

/-- The number of brackets that may be open at once in a document. -/
def depthLimit : Nat := 127

/-- The value at the front of a text, and the rest. -/
def readFirst (text : List Char) : Except Failure (Json × List Char) :=
  (value depthLimit).read text

/-- Nothing but space is left. -/
def readEnd (text : List Char) : Except Failure Unit :=
  match skipSpace text with
  | [] => .ok ()
  | rest => failAt .trailingCharacters rest

end Json
end NestedStyles

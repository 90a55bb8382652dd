import NestedStyles.Json.Basic
import NestedStyles.Json.Text

/-!
# Texts of a value

`Json.IsText numeral v text` says that a text writes a value, without reading it: members and
elements stand in the order of the value, there may be space between any two tokens, and each
character of a string stands in one of its spellings. How a number is written is left to `numeral`.
-/

namespace NestedStyles.Json

/-- Any number of the characters that may stand between tokens. -/
def IsGap (text : List Char) : Prop := ∀ c ∈ text, isSpace c

instance : DecidablePred IsGap := fun _ => decidable_of_iff _ List.all_eq_true

/-! ## Strings -/

/-- Four hexadecimal digits, of either case, and their number. -/
inductive HexQuad : Nat → List Char → Prop
  | intro {a b c d : Char} {i j k l : Nat} (ha : hexDigit? a = some i) (hb : hexDigit? b = some j)
      (hc : hexDigit? c = some k) (hd : hexDigit? d = some l) :
      HexQuad (((i * 16 + j) * 16 + k) * 16 + l) [a, b, c, d]

/-- The ways to write a character of a string. -/
inductive Spelling : Char → List Char → Prop
  /-- As itself, which a quote, a backslash and a control character cannot be. -/
  | raw {c : Char} (hquote : c ≠ '"') (hbackslash : c ≠ '\\') (hcontrol : 0x20 ≤ c.toNat) :
      Spelling c [c]
  | letter {c e : Char} (h : (e, c) ∈ letterEscapes) : Spelling c ['\\', e]
  | unit {c : Char} {digits : List Char} (h : HexQuad c.toNat digits) :
      Spelling c ('\\' :: 'u' :: digits)
  /-- As two surrogates, outside of the basic plane. -/
  | pair {c : Char} {leading trailing : Nat} {digits digits' : List Char}
      (hleading : 0xD800 ≤ leading ∧ leading ≤ 0xDBFF)
      (htrailing : 0xDC00 ≤ trailing ∧ trailing ≤ 0xDFFF)
      (hc : c.toNat = 0x10000 + (leading - 0xD800) * 0x400 + (trailing - 0xDC00))
      (h : HexQuad leading digits) (h' : HexQuad trailing digits') :
      Spelling c ('\\' :: 'u' :: digits ++ '\\' :: 'u' :: digits')

/-- Characters one behind the other, each in one of its spellings. -/
inductive Spellings : List Char → List Char → Prop
  | nil : Spellings [] []
  | cons {c : Char} {cs text rest : List Char} (h : Spelling c text) (hrest : Spellings cs rest) :
      Spellings (c :: cs) (text ++ rest)

/-- The texts of a string: quotes around any spelling of its characters. -/
def StringText (s : String) (text : List Char) : Prop :=
  ∃ inside, Spellings s.toList inside ∧ text = '"' :: inside ++ ['"']

/-! ## Values -/

/-- What stands between two brackets: items with commas between them, or nothing. -/
inductive Listed : List (List Char → Prop) → List Char → Prop
  | nothing {gap : List Char} (h : IsGap gap) : Listed [] gap
  | last {item : List Char → Prop} {gap text gap' : List Char} (hgap : IsGap gap)
      (h : item text) (hgap' : IsGap gap') : Listed [item] (gap ++ text ++ gap')
  | more {item next : List Char → Prop} {items : List (List Char → Prop)}
      {gap text gap' rest : List Char} (hgap : IsGap gap) (h : item text) (hgap' : IsGap gap')
      (hrest : Listed (next :: items) rest) :
      Listed (item :: next :: items) (gap ++ text ++ gap' ++ ',' :: rest)

/-- The texts of a member, with gaps on both sides of its colon. -/
def MemberText (key : String) (value : List Char → Prop) (text : List Char) : Prop :=
  ∃ name gap gap' behind, StringText key name ∧ IsGap gap ∧ IsGap gap' ∧ value behind ∧
    text = name ++ gap ++ ':' :: gap' ++ behind

section
variable (numeral : Number → List Char → Prop)

mutual
/-- The text writes the value, without space around it. -/
def IsText : Json → List Char → Prop
  | null, text => text = ['n', 'u', 'l', 'l']
  | boolean true, text => text = ['t', 'r', 'u', 'e']
  | boolean false, text => text = ['f', 'a', 'l', 's', 'e']
  | number n, text => numeral n text
  | string s, text => StringText s text
  | array elements, text =>
    ∃ inside, Listed (elementTexts elements) inside ∧ text = '[' :: inside ++ [']']
  | object members, text =>
    ∃ inside, Listed (memberTexts members) inside ∧ text = '\x7b' :: inside ++ ['\x7d']
termination_by structural value => value

/-- The texts of each element. -/
def elementTexts : List Json → List (List Char → Prop)
  | [] => []
  | element :: rest => IsText element :: elementTexts rest
termination_by structural elements => elements

/-- The texts of each member. -/
def memberTexts : List (String × Json) → List (List Char → Prop)
  | [] => []
  | (key, value) :: rest => MemberText key (IsText value) :: memberTexts rest
termination_by structural members => members
end

end

/-! ## Writing -/

theorem IsGap.nil : IsGap [] := fun _ h => nomatch h

theorem hexQuad_digitChar {n : Nat} (h : n < 0x10000) :
    HexQuad n [(n / 0x1000).digitChar, (n / 0x100 % 0x10).digitChar, (n / 0x10 % 0x10).digitChar,
      (n % 0x10).digitChar] := by
  have hdigit : ∀ d < 16, hexDigit? (Nat.digitChar d) = some d := by decide
  have hn : ((n / 0x1000 * 16 + n / 0x100 % 0x10) * 16 + n / 0x10 % 0x10) * 16 + n % 0x10 = n := by
    omega
  have hquad := HexQuad.intro (hdigit (n / 0x1000) (by omega))
    (hdigit (n / 0x100 % 0x10) (Nat.mod_lt _ (by decide)))
    (hdigit (n / 0x10 % 0x10) (Nat.mod_lt _ (by decide)))
    (hdigit (n % 0x10) (Nat.mod_lt _ (by decide)))
  rwa [hn] at hquad

/-- Every character can be spelled in some way. -/
theorem exists_spelling (c : Char) : ∃ text, Spelling c text := by
  by_cases hquote : c = '"'
  · subst hquote
    exact ⟨['\\', '"'], .letter (by decide)⟩
  by_cases hbackslash : c = '\\'
  · subst hbackslash
    exact ⟨['\\', '\\'], .letter (by decide)⟩
  by_cases hcontrol : 0x20 ≤ c.toNat
  · exact ⟨_, .raw hquote hbackslash hcontrol⟩
  · exact ⟨_, .unit (hexQuad_digitChar (by omega))⟩

theorem exists_stringText (s : String) : ∃ text, StringText s text := by
  have hspellings (cs : List Char) : ∃ text, Spellings cs text := by
    induction cs with
    | nil => exact ⟨_, .nil⟩
    | cons c cs ih =>
      obtain ⟨text, htext⟩ := exists_spelling c
      obtain ⟨rest, hrest⟩ := ih
      exact ⟨_, .cons htext hrest⟩
  obtain ⟨inside, hinside⟩ := hspellings s.toList
  exact ⟨_, inside, hinside, rfl⟩

/-- A member may be written without any space. -/
theorem MemberText.tight {key : String} {name behind : List Char} {texts : List Char → Prop}
    (hkey : StringText key name) (h : texts behind) :
    MemberText key texts (name ++ ':' :: behind) :=
  ⟨name, [], [], behind, hkey, .nil, .nil, h, by simp⟩

theorem exists_memberText {texts : List Char → Prop} (h : ∃ text, texts text) (key : String) :
    ∃ text, MemberText key texts text := by
  obtain ⟨name, hname⟩ := exists_stringText key
  obtain ⟨text, htext⟩ := h
  exact ⟨_, .tight hname htext⟩

theorem exists_listed {items : List (List Char → Prop)} (h : ∀ item ∈ items, ∃ text, item text) :
    ∃ inside, Listed items inside := by
  induction items with
  | nil => exact ⟨_, .nothing .nil⟩
  | cons item items ih =>
    obtain ⟨⟨text, htext⟩, hitems⟩ := List.forall_mem_cons.mp h
    obtain ⟨inside, hinside⟩ := ih hitems
    cases items with
    | nil => exact ⟨_, .last .nil htext .nil⟩
    | cons next items => exact ⟨_, .more .nil htext .nil hinside⟩

/-! ## Depth -/

mutual
/-- How many brackets are open at once where most are. -/
def depth : Json → Nat
  | array elements => depthOfElements elements + 1
  | object members => depthOfMembers members + 1
  | _ => 0
termination_by structural value => value

def depthOfElements : List Json → Nat
  | [] => 0
  | element :: rest => max element.depth (depthOfElements rest)
termination_by structural elements => elements

def depthOfMembers : List (String × Json) → Nat
  | [] => 0
  | (_, value) :: rest => max value.depth (depthOfMembers rest)
termination_by structural members => members
end

end NestedStyles.Json

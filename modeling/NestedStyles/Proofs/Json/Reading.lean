import Mathlib.Data.List.Forall2
import Mathlib.Data.List.TakeWhile
import NestedStyles.Json.Value
import NestedStyles.Proofs.Json.Writing

/-!
# Reading a value back

The reader finds a value at the front of every text that writes it, and leaves what stands behind
(`Json.finds_value`), as long as no more brackets are open than it follows and it can read the
numerals. A list and an object are read by the same loop, so one lemma on what stands between two
brackets serves both (`Json.readBracket_of_listed`).
-/

namespace NestedStyles.Json

/-! ## Space -/

theorem skipSpace_gap {gap : List Char} (h : IsGap gap) (text : List Char) :
    skipSpace (gap ++ text) = skipSpace text :=
  List.dropWhile_append_of_pos h

theorem skipSpace_cons {c : Char} (h : isSpace c = false) (text : List Char) :
    skipSpace (c :: text) = c :: text := by
  simp [skipSpace, h]

theorem readEnd_gap {gap : List Char} (h : IsGap gap) : readEnd gap = .ok () := by
  rw [readEnd, skipSpace, List.dropWhile_eq_nil_iff.mpr h]

/-- Where more than space is left, this is what the failure is about. -/
theorem exists_readEnd_of_not_gap {rest : List Char} (h : ¬IsGap rest) :
    ∃ unread, readEnd rest = .error ⟨.trailingCharacters, unread⟩ := by
  unfold readEnd
  split
  · rename_i hskip
    exact absurd (List.dropWhile_eq_nil_iff.mp hskip) h
  · exact ⟨_, rfl⟩

/-- What can stand behind a value: space, or one of the marks that end an item. -/
def Terminated (rest : List Char) : Prop :=
  ∀ c ∈ rest.head?, isSpace c ∨ c = ',' ∨ c = ']' ∨ c = '\x7d'

theorem Terminated.gap {gap rest : List Char} (hgap : IsGap gap) (h : Terminated rest) :
    Terminated (gap ++ rest) := by
  cases gap with
  | nil => exact h
  | cons c gap =>
    intro d hd
    obtain rfl := Option.some.inj hd
    exact .inl (hgap c List.mem_cons_self)

/-- A text that begins with neither space nor a bracket that closes. -/
def Opens (text : List Char) : Prop :=
  ∃ c rest, text = c :: rest ∧ isSpace c = false ∧ c ≠ ']' ∧ c ≠ '\x7d'

theorem Opens.cons {c : Char} (h : isSpace c = false ∧ c ≠ ']' ∧ c ≠ '\x7d') (rest : List Char) :
    Opens (c :: rest) := ⟨c, rest, rfl, h⟩

theorem Opens.skipSpace_gap {gap text : List Char} (h : Opens text) (hgap : IsGap gap)
    (rest : List Char) : skipSpace (gap ++ text ++ rest) = text ++ rest := by
  obtain ⟨c, text, rfl, hc, -, -⟩ := h
  rw [List.append_assoc, Json.skipSpace_gap hgap]
  exact skipSpace_cons hc _

/-! ## Strings -/

theorem readCharacters_escape {text rest : List Char} {c : Char}
    (h : readEscape text = .ok (c, rest)) :
    readCharacters ('\\' :: text) =
      (readCharacters rest).map fun found => (c :: found.1, found.2) := by
  rw [readCharacters, if_neg (by decide), if_pos rfl]
  split
  · rename_i heq
    rw [h] at heq
    cases heq
  · rename_i heq
    rw [h] at heq
    cases heq
    cases readCharacters rest <;> rfl

theorem readCharacters_raw {c : Char} (hquote : c ≠ '"') (hbackslash : c ≠ '\\')
    (hcontrol : 0x20 ≤ c.toNat) (text : List Char) :
    readCharacters (c :: text) =
      (readCharacters text).map fun found => (c :: found.1, found.2) := by
  rw [readCharacters, if_neg hquote, if_neg hbackslash, if_neg (Nat.not_lt.mpr hcontrol)]
  cases readCharacters text <;> rfl

theorem readHexQuad_of_hexQuad {unit : Nat} {digits : List Char} (h : HexQuad unit digits)
    (rest : List Char) : readHexQuad (digits ++ rest) = .ok (unit, rest) := by
  obtain ⟨ha, hb, hc, hd⟩ := h
  rename_i a b c d _ _ _ _
  have hsize : ¬byteSize ([a, b, c, d].take 4) < 4 := by
    have := a.utf8Size_pos
    have := b.utf8Size_pos
    have := c.utf8Size_pos
    have := d.utf8Size_pos
    simp [byteSize]
    omega
  unfold readHexQuad
  rw [if_neg (by simpa using hsize)]
  simp only [List.cons_append, List.nil_append, ha, hb, hc, hd]

theorem not_isSurrogate (c : Char) : isSurrogate c.toNat = false := by
  have h : c.toNat < 0xD800 ∨ 0xDFFF < c.toNat ∧ c.toNat < 0x110000 := c.valid
  simp [isSurrogate]
  omega

theorem readUnicodeEscape_unit {c : Char} {digits : List Char} (h : HexQuad c.toNat digits)
    (rest : List Char) : readUnicodeEscape (digits ++ rest) = .ok (c, rest) := by
  have hsurrogate := not_isSurrogate c
  have htrailing : isTrailing c.toNat = false := by
    simp [isSurrogate, isTrailing] at hsurrogate ⊢
    omega
  simp [readUnicodeEscape, readHexQuad_of_hexQuad h, bind, Except.bind, htrailing, hsurrogate]

/-- Two escapes that are halves of a character are read as that one character. -/
theorem readUnicodeEscape_pair {c : Char} {leading trailing : Nat} {digits digits' : List Char}
    (hleading : 0xD800 ≤ leading ∧ leading ≤ 0xDBFF)
    (htrailing : 0xDC00 ≤ trailing ∧ trailing ≤ 0xDFFF)
    (hc : c.toNat = 0x10000 + (leading - 0xD800) * 0x400 + (trailing - 0xDC00))
    (h : HexQuad leading digits) (h' : HexQuad trailing digits') (rest : List Char) :
    readUnicodeEscape (digits ++ '\\' :: 'u' :: (digits' ++ rest)) = .ok (c, rest) := by
  have hl : isTrailing leading = false ∧ isSurrogate leading = true := by
    simp [isTrailing, isSurrogate]
    omega
  have ht : isTrailing trailing = true := by
    simpa [isTrailing] using htrailing
  have hchar : ofSurrogates leading trailing = c := by
    rw [ofSurrogates, ← hc, Char.ofNat_toNat]
  simp [readUnicodeEscape, readHexQuad_of_hexQuad h, readHexQuad_of_hexQuad h', readPairLink, bind,
    Except.bind, hl, ht, hchar]

theorem readEscape_letter {c e : Char} (h : (e, c) ∈ letterEscapes) (rest : List Char) :
    readEscape (e :: rest) = .ok (c, rest) := by
  have hall : ∀ pair ∈ letterEscapes, pair.1 ≠ 'u' ∧ letterEscapes.lookup pair.1 = some pair.2 := by
    decide
  obtain ⟨hu, hlookup⟩ := hall _ h
  simp only [readEscape, if_neg hu, hlookup]

/-- Every spelling of a character is read as that character. -/
theorem readCharacters_spelling {c : Char} {text : List Char} (h : Spelling c text)
    (rest : List Char) :
    readCharacters (text ++ rest) =
      (readCharacters rest).map fun found => (c :: found.1, found.2) := by
  cases h with
  | raw hquote hbackslash hcontrol => exact readCharacters_raw hquote hbackslash hcontrol rest
  | letter h => exact readCharacters_escape (readEscape_letter h rest)
  | unit h => exact readCharacters_escape (readUnicodeEscape_unit h rest)
  | pair hleading htrailing hc h h' =>
    rw [List.append_assoc]
    exact readCharacters_escape (readUnicodeEscape_pair hleading htrailing hc h h' rest)

/-- A string is read from any spelling of its characters. -/
theorem readCharacters_of_spellings {cs text : List Char} (h : Spellings cs text)
    (rest : List Char) : readCharacters (text ++ '"' :: rest) = .ok (cs, rest) := by
  induction h with
  | nil => rw [List.nil_append, readCharacters, if_pos rfl]
  | cons hc _ ih =>
    rw [List.append_assoc, readCharacters_spelling hc, ih]
    rfl

/-! ## Items -/

/-- Behind any space a reader finds `a` at the front of every text for it. -/
structure Finds (reader : Reader α) (a : α) (texts : List Char → Prop) : Prop where
  opens : ∀ {text}, texts text → Opens text
  read : ∀ {gap text rest}, IsGap gap → texts text → Terminated rest →
    reader.read (gap ++ text ++ rest) = .ok (a, rest)

theorem Finds.mono {reader : Reader α} {a : α} {texts texts' : List Char → Prop}
    (h : Finds reader a texts) (hle : ∀ text, texts' text → texts text) :
    Finds reader a texts' where
  opens htext := h.opens (hle _ htext)
  read hgap htext hrest := h.read hgap (hle _ htext) hrest

/-- What both brackets have in common: the character that closes is one of the two. -/
def Bracket.Closes (bracket : Bracket) : Prop := bracket.close = ']' ∨ bracket.close = '\x7d'

namespace Bracket.Closes

variable {bracket : Bracket} (h : bracket.Closes)
include h

theorem isSpace_eq_false : isSpace bracket.close = false := by
  rcases h with h | h <;> rw [h] <;> decide

theorem ne_comma : ',' ≠ bracket.close := by
  rcases h with h | h <;> rw [h] <;> decide

theorem terminated (rest : List Char) : Terminated (bracket.close :: rest) := by
  intro c hc
  obtain rfl := Option.some.inj hc
  rcases h with h | h
  · exact .inr (.inr (.inl h))
  · exact .inr (.inr (.inr h))

theorem exists_cons {text : List Char} (htext : Opens text) :
    ∃ c rest, text = c :: rest ∧ c ≠ bracket.close := by
  obtain ⟨c, rest, rfl, -, hlist, hobject⟩ := htext
  refine ⟨c, rest, rfl, ?_⟩
  rcases h with h | h <;> rw [h]
  · exact hlist
  · exact hobject

end Bracket.Closes

theorem readItems_last {bracket : Bracket} {item : Reader α} {text behind rest : List Char} {a : α}
    (h : item.read text = .ok (a, behind)) (hclose : skipSpace behind = bracket.close :: rest) :
    readItems bracket item text = .ok ([a], rest) := by
  rw [readItems]
  split
  · rename_i heq
    rw [h] at heq
    cases heq
  · rename_i heq
    rw [h] at heq
    cases heq
    split
    · rename_i hnil
      rw [hclose] at hnil
      cases hnil
    · rename_i hcons
      rw [hclose] at hcons
      cases hcons
      exact if_pos rfl

theorem readItems_more {bracket : Bracket} {item : Reader α} {text behind rest rest' : List Char}
    {a : α} {items : List α} (h : item.read text = .ok (a, behind))
    (hcomma : skipSpace behind = ',' :: rest) (hclose : ',' ≠ bracket.close)
    (hnext : (skipSpace rest).head? ≠ some bracket.close)
    (hrest : readItems bracket item rest = .ok (items, rest')) :
    readItems bracket item text = .ok (a :: items, rest') := by
  rw [readItems]
  split
  · rename_i heq
    rw [h] at heq
    cases heq
  · rename_i heq
    rw [h] at heq
    cases heq
    split
    · rename_i hnil
      rw [hcomma] at hnil
      cases hnil
    · rename_i hcons
      rw [hcomma] at hcons
      cases hcons
      rw [if_neg hclose, if_pos rfl, if_neg hnext, hrest]

/-- A text of the first item stands in front, behind some space that may as well be missing. -/
theorem Listed.exists_first {item : List Char → Prop} {items : List (List Char → Prop)}
    {inside : List Char} (h : Listed (item :: items) inside) :
    ∃ gap text behind, IsGap gap ∧ item text ∧ inside = gap ++ text ++ behind ∧
      Listed (item :: items) (text ++ behind) := by
  cases h with
  | @last _ gap text gap' hgap htext hgap' =>
    exact ⟨gap, text, gap', hgap, htext, rfl, .last .nil htext hgap'⟩
  | @more _ next items gap text gap' rest hgap htext hgap' hrest =>
    refine ⟨gap, text, gap' ++ ',' :: rest, hgap, htext, List.append_assoc .., ?_⟩
    simpa using Listed.more .nil htext hgap' hrest

/-- No item begins with the character that closes. -/
theorem Listed.head?_skipSpace {bracket : Bracket} (hbracket : bracket.Closes) {reader : Reader α}
    {a : α} {item : List Char → Prop} {items : List (List Char → Prop)} {inside : List Char}
    (hitem : Finds reader a item) (h : Listed (item :: items) inside) (rest : List Char) :
    (skipSpace (inside ++ rest)).head? ≠ some bracket.close := by
  obtain ⟨gap, text, behind, hgap, htext, rfl, -⟩ := h.exists_first
  have hopens := hitem.opens htext
  rw [List.append_assoc, hopens.skipSpace_gap hgap]
  obtain ⟨c, text, rfl, hc⟩ := hbracket.exists_cons hopens
  exact fun h => hc (Option.some.inj h)

/-- Items with commas between them are read back in order. -/
theorem readItems_of_listed {bracket : Bracket} (hbracket : bracket.Closes) {reader : Reader α}
    {found : List α} {items : List (List Char → Prop)}
    (hitems : List.Forall₂ (Finds reader) found items) (hne : items ≠ []) {inside : List Char}
    (h : Listed items inside) (rest : List Char) :
    readItems bracket reader (inside ++ bracket.close :: rest) = .ok (found, rest) := by
  induction h generalizing found with
  | nothing => exact absurd rfl hne
  | @last item gap text gap' hgap htext hgap' =>
    obtain ⟨a, _, hitem, hnil, rfl⟩ := List.forall₂_cons_right_iff.mp hitems
    obtain rfl := List.forall₂_nil_right_iff.mp hnil
    have hread := hitem.read hgap htext ((hbracket.terminated rest).gap hgap')
    rw [List.append_assoc]
    refine readItems_last hread ?_
    rw [skipSpace_gap hgap', skipSpace_cons hbracket.isSpace_eq_false]
  | @more item next items gap text gap' others hgap htext hgap' hrest ih =>
    obtain ⟨a, found, hitem, hothers, rfl⟩ := List.forall₂_cons_right_iff.mp hitems
    obtain ⟨b, _, hnext, -, -⟩ := List.forall₂_cons_right_iff.mp hothers
    have hcomma : Terminated (',' :: (others ++ bracket.close :: rest)) := by
      intro c hc
      obtain rfl := Option.some.inj hc
      exact .inr (.inl rfl)
    have hread := hitem.read hgap htext (hcomma.gap hgap')
    rw [List.append_assoc, List.append_assoc, List.cons_append]
    refine readItems_more hread ?_ hbracket.ne_comma (hrest.head?_skipSpace hbracket hnext _)
      (ih hothers (List.cons_ne_nil _ _))
    rw [skipSpace_gap hgap', skipSpace_cons (by decide)]

/-- Any number of items in a bracket is read back, with gaps wherever they may be. -/
theorem readBracket_of_listed {bracket : Bracket} (hbracket : bracket.Closes) {reader : Reader α}
    {found : List α} {items : List (List Char → Prop)}
    (hitems : List.Forall₂ (Finds reader) found items) {inside : List Char}
    (h : Listed items inside) (rest : List Char) :
    readBracket bracket reader (inside ++ bracket.close :: rest) = .ok (found, rest) := by
  unfold readBracket
  cases hitems with
  | nil =>
    obtain ⟨hgap⟩ := h
    rw [skipSpace_gap hgap, skipSpace_cons hbracket.isSpace_eq_false]
    exact if_pos rfl
  | @cons a item found items hitem hothers =>
    obtain ⟨gap, text, behind, hgap, htext, rfl, hfirst⟩ := h.exists_first
    have hopens := hitem.opens htext
    have hread := readItems_of_listed hbracket (.cons hitem hothers) (List.cons_ne_nil _ _)
      hfirst rest
    have hskip := hopens.skipSpace_gap hgap (behind ++ bracket.close :: rest)
    obtain ⟨c, text, rfl, hc⟩ := hbracket.exists_cons hopens
    simp only [List.append_assoc] at hskip hread ⊢
    rw [hskip]
    exact (if_neg hc).trans hread

theorem readColon_gap {gap : List Char} (h : IsGap gap) (rest : List Char) :
    readColon (gap ++ ':' :: rest) = .ok rest := by
  unfold readColon
  rw [skipSpace_gap h, skipSpace_cons (by decide)]
  exact if_pos rfl

/-- A member is found with its key, in whatever way that is spelled. -/
theorem finds_member {reader : Reader Json} {v : Json} {texts : List Char → Prop}
    (h : Finds reader v texts) (key : String) :
    Finds (member reader) (key, v) (MemberText key texts) where
  opens := by
    rintro _ ⟨_, gap, gap', behind, ⟨inside, -, rfl⟩, -, -, -, rfl⟩
    exact .cons (by decide) _
  read := by
    rintro outer _ rest houter ⟨_, gap, gap', behind, ⟨inside, hkey, rfl⟩, hgap, hgap', hv, rfl⟩
      hrest
    have hskip :
        skipSpace (outer ++ ('"' :: inside ++ ['"'] ++ gap ++ ':' :: gap' ++ behind) ++ rest) =
          '"' :: (inside ++ '"' :: (gap ++ ':' :: (gap' ++ behind ++ rest))) := by
      rw [List.append_assoc, skipSpace_gap houter]
      simp [skipSpace_cons (c := '"') (by decide)]
    change readMember reader _ = _
    unfold readMember
    rw [hskip]
    simp only [if_true, readCharacters_of_spellings hkey, readColon_gap hgap,
      h.read hgap' hv hrest, bind, Except.bind, String.ofList_toList]

/-! ## Values -/

theorem readWord_append (word rest : List Char) : readWord word (word ++ rest) = .ok rest := by
  induction word with
  | nil => rfl
  | cons c word ih => exact (if_pos rfl).trans ih

/-- The reader for the values inside of a value, if there may be any. -/
theorem exists_read_value (limit : Nat) : ∃ inner, (value limit).read = readValue inner := by
  rw [value.eq_def]
  exact ⟨_, rfl⟩

theorem read_value_succ (limit : Nat) :
    (value (limit + 1)).read = readValue (some (value limit)) := by
  rw [value]

/-- It is enough to look at the text from its first character on. -/
theorem Finds.of_readFrom {reader : Reader Json} {inner : Option (Reader Json)}
    (hreader : reader.read = readValue inner) {v : Json} {texts : List Char → Prop}
    (h : ∀ text, texts text → Opens text ∧ ∃ c behind, text = c :: behind ∧
      ∀ rest, Terminated rest → readFrom inner c (behind ++ rest) = .ok (v, rest)) :
    Finds reader v texts where
  opens htext := (h _ htext).1
  read := by
    intro gap text rest hgap htext hrest
    obtain ⟨hopens, c, behind, rfl, hread⟩ := h text htext
    rw [hreader, readValue, hopens.skipSpace_gap hgap]
    exact hread rest hrest

theorem Finds.of_word {limit : Nat} {v : Json} {c : Char} {word : List Char}
    (hopens : Opens (c :: word))
    (h : ∀ inner text, readFrom inner c text = readWord word text >>= fun rest => .ok (v, rest)) :
    Finds (value limit) v (· = c :: word) := by
  obtain ⟨inner, hinner⟩ := exists_read_value limit
  refine .of_readFrom hinner ?_
  rintro _ rfl
  refine ⟨hopens, c, word, rfl, fun rest _ => ?_⟩
  rw [h, readWord_append]
  rfl

theorem finds_null (limit : Nat) : Finds (value limit) null (· = ['n', 'u', 'l', 'l']) :=
  .of_word (.cons (by decide) _) fun _ _ => rfl

theorem finds_true (limit : Nat) :
    Finds (value limit) (boolean true) (· = ['t', 'r', 'u', 'e']) :=
  .of_word (.cons (by decide) _) fun _ _ => rfl

theorem finds_false (limit : Nat) :
    Finds (value limit) (boolean false) (· = ['f', 'a', 'l', 's', 'e']) :=
  .of_word (.cons (by decide) _) fun _ _ => rfl

theorem finds_string (limit : Nat) (s : String) :
    Finds (value limit) (string s) (StringText s) := by
  obtain ⟨inner, hinner⟩ := exists_read_value limit
  refine .of_readFrom hinner ?_
  rintro _ ⟨inside, hs, rfl⟩
  refine ⟨.cons (by decide) _, '"', _, rfl, fun rest _ => ?_⟩
  simp [readFrom, readCharacters_of_spellings hs, bind, Except.bind]

/-- A list is found one level above its elements. -/
theorem finds_array {limit : Nat} {elements : List Json} {items : List (List Char → Prop)}
    (h : List.Forall₂ (Finds (value limit)) elements items) :
    Finds (value (limit + 1)) (array elements) fun text =>
      ∃ inside, Listed items inside ∧ text = '[' :: inside ++ [']'] := by
  refine .of_readFrom (read_value_succ limit) ?_
  rintro _ ⟨inside, hinside, rfl⟩
  refine ⟨.cons (by decide) _, '[', _, rfl, fun rest _ => ?_⟩
  have hread : readBracket .list (value limit) (inside ++ ']' :: rest) = .ok (elements, rest) :=
    readBracket_of_listed (.inl rfl) h hinside rest
  simp [readFrom, hread, Char.isDigit, bind, Except.bind]

/-- An object is found one level above the values of its members. -/
theorem finds_object {limit : Nat} {members : List (String × Json)}
    {items : List (List Char → Prop)}
    (h : List.Forall₂ (Finds (member (value limit))) members items) :
    Finds (value (limit + 1)) (object members) fun text =>
      ∃ inside, Listed items inside ∧ text = '\x7b' :: inside ++ ['\x7d'] := by
  refine .of_readFrom (read_value_succ limit) ?_
  rintro _ ⟨inside, hinside, rfl⟩
  refine ⟨.cons (by decide) _, '\x7b', _, rfl, fun rest _ => ?_⟩
  have hread : readBracket .object (member (value limit)) (inside ++ '\x7d' :: rest) =
      .ok (members, rest) := readBracket_of_listed (.inr rfl) h hinside rest
  simp [readFrom, hread, Char.isDigit, bind, Except.bind]

section
variable {numeral : Number → List Char → Prop}

mutual
/-- A value is found at the front of every text that writes it, if no more brackets are open at
once than may be. -/
theorem finds_value (hnumeral : ∀ limit n, Finds (value limit) (number n) (numeral n)) :
    ∀ (v : Json) {limit : Nat}, v.depth ≤ limit → Finds (value limit) v (IsText numeral v)
  | null, limit, _ => finds_null limit
  | boolean true, limit, _ => finds_true limit
  | boolean false, limit, _ => finds_false limit
  | number n, limit, _ => hnumeral limit n
  | string s, limit, _ => finds_string limit s
  | array elements, _ + 1, h =>
    finds_array (finds_elements hnumeral elements (Nat.le_of_succ_le_succ h))
  | object members, _ + 1, h =>
    finds_object (finds_members hnumeral members (Nat.le_of_succ_le_succ h))

theorem finds_elements (hnumeral : ∀ limit n, Finds (value limit) (number n) (numeral n)) :
    ∀ (elements : List Json) {limit : Nat}, depthOfElements elements ≤ limit →
      List.Forall₂ (Finds (value limit)) elements (elementTexts numeral elements)
  | [], _, _ => .nil
  | element :: rest, _, h =>
    .cons (finds_value hnumeral element (Nat.le_trans (Nat.le_max_left ..) h))
      (finds_elements hnumeral rest (Nat.le_trans (Nat.le_max_right ..) h))

theorem finds_members (hnumeral : ∀ limit n, Finds (value limit) (number n) (numeral n)) :
    ∀ (members : List (String × Json)) {limit : Nat}, depthOfMembers members ≤ limit →
      List.Forall₂ (Finds (member (value limit))) members (memberTexts numeral members)
  | [], _, _ => .nil
  | (key, v) :: rest, _, h =>
    .cons (finds_member (finds_value hnumeral v (Nat.le_trans (Nat.le_max_left ..) h)) key)
      (finds_members hnumeral rest (Nat.le_trans (Nat.le_max_right ..) h))
end

end

end NestedStyles.Json

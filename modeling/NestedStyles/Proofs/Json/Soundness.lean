import NestedStyles.Proofs.Json.Numeral

/-!
# What the reader accepts

Every value that is read is written by the text in front of what is left (`Json.sound_value`), with
no more brackets open at once than the reader follows. Together with `Json.finds_value` this says
which documents are JSON, and for what value, without reading them (`Json.isSource_iff`).
-/

namespace NestedStyles.Json

/-! ## Space and words -/

theorem exists_gap (text : List Char) : ∃ gap, IsGap gap ∧ text = gap ++ skipSpace text :=
  ⟨text.takeWhile isSpace, fun _ hc => List.mem_takeWhile_imp hc,
    List.takeWhile_append_dropWhile.symm⟩

theorem readWord_sound {word text rest : List Char} (h : readWord word text = .ok rest) :
    text = word ++ rest := by
  induction word generalizing text with
  | nil =>
    cases h
    rfl
  | cons e word ih =>
    cases text with
    | nil => cases h
    | cons c text =>
      rw [readWord] at h
      split at h
      · rename_i hc
        rw [hc, ih h, List.cons_append]
      · cases h

/-! ## Strings -/

theorem hexDigit?_lt {c : Char} {d : Nat} (h : hexDigit? c = some d) : d < 16 := by
  unfold hexDigit? at h
  have hle {a b : Char} : a ≤ b ↔ a.toNat ≤ b.toNat := Iff.rfl
  simp only [hle] at h
  split at h
  · rename_i hc
    cases h
    have : c.toNat ≤ 57 := hc.2
    show c.toNat - 48 < 16
    omega
  split at h
  · rename_i hc
    cases h
    have : c.toNat ≤ 102 := hc.2
    show c.toNat - 97 + 10 < 16
    omega
  split at h
  · rename_i hc
    cases h
    have : c.toNat ≤ 70 := hc.2
    show c.toNat - 65 + 10 < 16
    omega
  · cases h

theorem HexQuad.lt {n : Nat} {digits : List Char} (h : HexQuad n digits) : n < 0x10000 := by
  obtain ⟨ha, hb, hc, hd⟩ := h
  have := hexDigit?_lt ha
  have := hexDigit?_lt hb
  have := hexDigit?_lt hc
  have := hexDigit?_lt hd
  omega

theorem readHexQuad_sound {text rest : List Char} {unit : Nat}
    (h : readHexQuad text = .ok (unit, rest)) :
    ∃ digits, HexQuad unit digits ∧ text = digits ++ rest := by
  unfold readHexQuad at h
  split at h
  · cases h
  split at h
  · split at h
    · rename_i ha hb hc hd
      cases h
      exact ⟨_, .intro ha hb hc hd, rfl⟩
    · cases h
  · cases h

theorem readPairLink_sound {expected : Char} {text rest : List Char}
    (h : readPairLink expected text = .ok rest) : text = expected :: rest := by
  cases text with
  | nil => cases h
  | cons c text =>
    rw [readPairLink] at h
    split at h
    · rename_i hc
      cases h
      rw [hc]
    · cases h

theorem toNat_ofNat {n : Nat} (h : n.isValidChar) : (Char.ofNat n).toNat = n := by
  rw [Char.ofNat, dif_pos h]
  rfl

/-- The two surrogates of a pair are a character outside of the basic plane. -/
theorem toNat_ofSurrogates {leading trailing : Nat} (hleading : 0xD800 ≤ leading ∧ leading ≤ 0xDBFF)
    (htrailing : 0xDC00 ≤ trailing ∧ trailing ≤ 0xDFFF) :
    (ofSurrogates leading trailing).toNat =
      0x10000 + (leading - 0xD800) * 0x400 + (trailing - 0xDC00) :=
  toNat_ofNat (.inr (by omega))

/-- What is read as an escape by number is a spelling of the character. -/
theorem readUnicodeEscape_sound {text rest : List Char} {c : Char}
    (h : readUnicodeEscape text = .ok (c, rest)) :
    ∃ front, Spelling c ('\\' :: 'u' :: front) ∧ text = front ++ rest := by
  obtain ⟨⟨unit, behind⟩, hunit, hread⟩ := bind_eq_ok.mp h
  obtain ⟨digits, hdigits, htext⟩ := readHexQuad_sound hunit
  have hlt := hdigits.lt
  dsimp only at hread
  split at hread
  · cases hread
  rename_i htrailing
  simp only [isTrailing, Bool.and_eq_true, decide_eq_true_eq] at htrailing
  split at hread
  · rename_i hsurrogate
    simp only [isSurrogate, Bool.and_eq_true, decide_eq_true_eq] at hsurrogate
    obtain ⟨behind', hbackslash, hread⟩ := bind_eq_ok.mp hread
    obtain ⟨behind'', hu, hread⟩ := bind_eq_ok.mp hread
    obtain ⟨⟨trailing, after⟩, hquad, hread⟩ := bind_eq_ok.mp hread
    obtain ⟨digits', hdigits', htext'⟩ := readHexQuad_sound hquad
    dsimp only at hread
    split at hread
    · rename_i htrailing'
      simp only [isTrailing, Bool.and_eq_true, decide_eq_true_eq] at htrailing'
      obtain ⟨rfl, rfl⟩ := Prod.mk.inj (Except.ok.inj hread)
      have hleading : 0xD800 ≤ unit ∧ unit ≤ 0xDBFF := by omega
      have hpair : Spelling _ ('\\' :: 'u' :: (digits ++ '\\' :: 'u' :: digits')) :=
        .pair hleading htrailing' (toNat_ofSurrogates hleading htrailing') hdigits hdigits'
      refine ⟨_, hpair, ?_⟩
      rw [htext, readPairLink_sound hbackslash, readPairLink_sound hu, htext', List.append_assoc]
      rfl
    · cases hread
  · rename_i hsurrogate
    simp only [isSurrogate, Bool.and_eq_true, decide_eq_true_eq] at hsurrogate
    cases hread
    have hvalue : (Char.ofNat unit).toNat = unit := by
      refine toNat_ofNat ?_
      unfold Nat.isValidChar
      omega
    exact ⟨digits, .unit (hvalue.symm ▸ hdigits), htext⟩

/-- What is read as an escape is a spelling of the character. -/
theorem readEscape_sound {text rest : List Char} {c : Char}
    (h : readEscape text = .ok (c, rest)) :
    ∃ front, Spelling c ('\\' :: front) ∧ text = front ++ rest := by
  cases text with
  | nil => cases h
  | cons e text =>
    rw [readEscape] at h
    split at h
    · rename_i he
      obtain ⟨front, hspelling, htext⟩ := readUnicodeEscape_sound h
      exact ⟨'u' :: front, hspelling, by rw [he, htext, List.cons_append]⟩
    · split at h
      · rename_i hlookup
        cases h
        obtain ⟨before, behind, hescapes, -⟩ := List.lookup_eq_some_iff.mp hlookup
        refine ⟨[e], .letter ?_, rfl⟩
        rw [hescapes]
        exact List.mem_append_right _ List.mem_cons_self
      · cases h

/-- What is read as characters are spellings of them, up to a closing quote. -/
theorem readCharacters_sound {text rest cs : List Char}
    (h : readCharacters text = .ok (cs, rest)) :
    ∃ inside, Spellings cs inside ∧ text = inside ++ '"' :: rest := by
  fun_induction readCharacters text generalizing cs rest with
  | case1 | case3 | case4 | case6 | case7 => cases h
  | case2 =>
    cases h
    exact ⟨[], .nil, rfl⟩
  | case5 text e behind hescape cs' rest' hrest _ ih =>
    cases h
    obtain ⟨front, hspelling, htext⟩ := readEscape_sound hescape
    obtain ⟨inside, hinside, hbehind⟩ := ih hrest
    refine ⟨_, .cons hspelling hinside, ?_⟩
    rw [htext, hbehind, List.cons_append, List.cons_append, List.append_assoc]
  | case8 c text hquote hbackslash hcontrol cs' rest' hrest ih =>
    cases h
    obtain ⟨inside, hinside, htext⟩ := ih hrest
    refine ⟨_, .cons (.raw hquote hbackslash (Nat.le_of_not_lt hcontrol)) hinside, ?_⟩
    rw [htext]
    rfl

/-! ## Items -/

theorem IsGap.append {gap gap' : List Char} (h : IsGap gap) (h' : IsGap gap') :
    IsGap (gap ++ gap') :=
  List.forall_mem_append.mpr ⟨h, h'⟩

/-- There may be more space in front of the items. -/
theorem Listed.gap {items : List (List Char → Prop)} {gap inside : List Char}
    (h : Listed items inside) (hgap : IsGap gap) : Listed items (gap ++ inside) := by
  cases h with
  | nothing hgap' => exact .nothing (hgap.append hgap')
  | last hgap' htext hbehind =>
    rw [← List.append_assoc, ← List.append_assoc]
    exact .last (hgap.append hgap') htext hbehind
  | more hgap' htext hbehind hrest =>
    rw [← List.append_assoc, ← List.append_assoc, ← List.append_assoc]
    exact .more (hgap.append hgap') htext hbehind hrest

/-- Behind some space, what a reader finds is written by the text in front of the rest. -/
structure Sound (reader : Reader α) (good : α → Prop) (texts : α → List Char → Prop) : Prop where
  read : ∀ {text a rest}, reader.read text = .ok (a, rest) →
    good a ∧ ∃ gap front, IsGap gap ∧ texts a front ∧ text = gap ++ front ++ rest

section
variable {reader : Reader α} {good : α → Prop} {texts : α → List Char → Prop}
  {bracket : Bracket} {text rest : List Char} {found : List α}

/-- What is read as items is a list of at least one. -/
theorem readItems_sound (hitem : Sound reader good texts)
    (h : readItems bracket reader text = .ok (found, rest)) :
    (∀ a ∈ found, good a) ∧ found ≠ [] ∧ ∃ inside, Listed (found.map texts) inside ∧
      text = inside ++ bracket.close :: rest := by
  fun_induction readItems bracket reader text generalizing found rest with
  | case1 | case2 | case4 | case5 | case7 => cases h
  | case3 text a behind hread rest' hclose =>
    cases h
    obtain ⟨hgood, gap, front, hgap, hfront, htext⟩ := hitem.read hread
    obtain ⟨gap', hgap', hbehind⟩ := exists_gap behind
    refine ⟨List.forall_mem_singleton.mpr hgood, List.cons_ne_nil _ _, _,
      .last hgap hfront hgap', ?_⟩
    rw [htext, List.append_assoc _ gap', ← hclose, ← hbehind]
  | case6 text a behind hread rest' _ others rest'' hothers hcomma _ ih =>
    cases h
    obtain ⟨hgood, gap, front, hgap, hfront, htext⟩ := hitem.read hread
    obtain ⟨gap', hgap', hbehind⟩ := exists_gap behind
    obtain ⟨hall, hne, inside, hinside, hrest⟩ := ih hothers
    refine ⟨List.forall_mem_cons.mpr ⟨hgood, hall⟩, List.cons_ne_nil _ _, ?_⟩
    obtain ⟨b, others, rfl⟩ := List.exists_cons_of_ne_nil hne
    refine ⟨_, .more hgap hfront hgap' hinside, ?_⟩
    rw [htext, hbehind, hcomma, hrest]
    simp only [List.append_assoc, List.cons_append]

/-- What is read in a bracket is a list of items, which may be empty. -/
theorem readBracket_sound (hitem : Sound reader good texts)
    (h : readBracket bracket reader text = .ok (found, rest)) :
    (∀ a ∈ found, good a) ∧ ∃ inside, Listed (found.map texts) inside ∧
      text = inside ++ bracket.close :: rest := by
  obtain ⟨gap, hgap, htext⟩ := exists_gap text
  unfold readBracket at h
  split at h
  · cases h
  · rename_i c behind hskip
    rw [hskip] at htext
    split at h
    · rename_i hclose
      cases h
      exact ⟨List.forall_mem_nil _, gap, .nothing hgap, hclose ▸ htext⟩
    · obtain ⟨hall, -, inside, hinside, hbehind⟩ := readItems_sound hitem h
      exact ⟨hall, gap ++ inside, hinside.gap hgap, by rw [htext, hbehind, List.append_assoc]⟩

end

theorem readColon_sound {text rest : List Char} (h : readColon text = .ok rest) :
    ∃ gap, IsGap gap ∧ text = gap ++ ':' :: rest := by
  obtain ⟨gap, hgap, htext⟩ := exists_gap text
  unfold readColon at h
  split at h
  · cases h
  · rename_i hskip
    split at h
    · rename_i hcolon
      cases h
      exact ⟨gap, hgap, by rw [htext, hskip, hcolon]⟩
    · cases h

/-- A reader of members is as sound as its reader of values. -/
theorem sound_member {reader : Reader Json} {good : Json → Prop} {texts : Json → List Char → Prop}
    (h : Sound reader good texts) :
    Sound (member reader) (fun found => good found.2) fun found =>
      MemberText found.1 (texts found.2) where
  read := by
    intro text found rest hread
    change readMember reader text = _ at hread
    obtain ⟨gap, hgap, htext⟩ := exists_gap text
    unfold readMember at hread
    split at hread
    · cases hread
    · rename_i hskip
      split at hread
      · rename_i hquote
        obtain ⟨⟨key, behind⟩, hkey, hread⟩ := bind_eq_ok.mp hread
        obtain ⟨behind', hcolon, hread⟩ := bind_eq_ok.mp hread
        obtain ⟨⟨v, behind''⟩, hvalue, hread⟩ := bind_eq_ok.mp hread
        cases hread
        obtain ⟨inside, hinside, hname⟩ := readCharacters_sound hkey
        obtain ⟨gap', hgap', hbehind⟩ := readColon_sound hcolon
        obtain ⟨hgood, gap'', front, hgap'', hfront, hbehind'⟩ := h.read hvalue
        have hstring : StringText (String.ofList key) ('"' :: inside ++ ['"']) :=
          ⟨inside, by rwa [String.toList_ofList], rfl⟩
        refine ⟨hgood, gap, _, hgap,
          ⟨_, gap', gap'', front, hstring, hgap', hgap'', hfront, rfl⟩, ?_⟩
        rw [htext, hskip, hquote, hname, hbehind, hbehind']
        simp
      · cases hread

/-! ## Values -/

theorem elementTexts_eq_map (numeral : Number → List Char → Prop) (elements : List Json) :
    elementTexts numeral elements = elements.map (IsText numeral) := by
  induction elements with
  | nil => rfl
  | cons element rest ih => rw [elementTexts, ih, List.map_cons]

theorem memberTexts_eq_map (numeral : Number → List Char → Prop) (members : List (String × Json)) :
    memberTexts numeral members =
      members.map fun found => MemberText found.1 (IsText numeral found.2) := by
  induction members with
  | nil => rfl
  | cons found rest ih => rw [memberTexts, ih, List.map_cons]

theorem depthOfElements_le {elements : List Json} {limit : Nat}
    (h : ∀ v ∈ elements, v.depth ≤ limit) : depthOfElements elements ≤ limit := by
  induction elements with
  | nil => exact Nat.zero_le _
  | cons element rest ih =>
    obtain ⟨helement, hrest⟩ := List.forall_mem_cons.mp h
    exact Nat.max_le.mpr ⟨helement, ih hrest⟩

theorem depthOfMembers_le {members : List (String × Json)} {limit : Nat}
    (h : ∀ found ∈ members, found.2.depth ≤ limit) : depthOfMembers members ≤ limit := by
  induction members with
  | nil => exact Nat.zero_le _
  | cons found rest ih =>
    obtain ⟨hfound, hrest⟩ := List.forall_mem_cons.mp h
    exact Nat.max_le.mpr ⟨hfound, ih hrest⟩

theorem readWord_value_sound {word behind rest : List Char} {v w : Json}
    (h : (do let rest ← readWord word behind; .ok (w, rest)) = Except.ok (v, rest)) :
    v = w ∧ behind = word ++ rest := by
  obtain ⟨_, hword, hvalue⟩ := bind_eq_ok.mp h
  cases hvalue
  exact ⟨rfl, readWord_sound hword⟩

/-- What is read from a first character on, given what the reader for the values inside does. -/
theorem readFrom_sound {inner : Option (Reader Json)} {limit : Nat} {c : Char}
    {behind rest : List Char} {v : Json}
    (hinner : ∀ reader ∈ inner, ∃ depth < limit,
      Sound reader (fun v => v.depth ≤ depth) (IsText NumberText))
    (h : readFrom inner c behind = .ok (v, rest)) :
    v.depth ≤ limit ∧ ∃ front, IsText NumberText v front ∧ c :: behind = front ++ rest := by
  unfold readFrom at h
  split at h
  · rename_i hc
    obtain ⟨rfl, rfl⟩ := readWord_value_sound h
    exact ⟨Nat.zero_le _, _, rfl, by rw [hc]; rfl⟩
  split at h
  · rename_i hc
    obtain ⟨rfl, rfl⟩ := readWord_value_sound h
    exact ⟨Nat.zero_le _, _, rfl, by rw [hc]; rfl⟩
  split at h
  · rename_i hc
    obtain ⟨rfl, rfl⟩ := readWord_value_sound h
    exact ⟨Nat.zero_le _, _, rfl, by rw [hc]; rfl⟩
  split at h
  · rename_i hc
    obtain ⟨⟨cs, _⟩, hstring, h⟩ := bind_eq_ok.mp h
    cases h
    obtain ⟨inside, hinside, htext⟩ := readCharacters_sound hstring
    refine ⟨Nat.zero_le _, _, ⟨inside, by rwa [String.toList_ofList], rfl⟩, ?_⟩
    rw [hc, htext]
    simp
  split at h
  · rename_i hc
    obtain ⟨⟨n, _⟩, hnumber, h⟩ := bind_eq_ok.mp h
    cases h
    obtain ⟨front, hfront, htext⟩ := readNumber_sound hnumber
    exact ⟨Nat.zero_le _, _, .negative hfront, by rw [hc, htext]; rfl⟩
  split at h
  · obtain ⟨⟨n, _⟩, hnumber, h⟩ := bind_eq_ok.mp h
    cases h
    obtain ⟨front, hfront, htext⟩ := readNumber_sound hnumber
    exact ⟨Nat.zero_le _, _, .unsigned hfront, htext⟩
  split at h
  · rename_i hc
    split at h
    · cases h
    · obtain ⟨⟨elements, _⟩, hlist, h⟩ := bind_eq_ok.mp h
      cases h
      obtain ⟨depth, hdepth, hsound⟩ := hinner _ rfl
      obtain ⟨hall, inside, hinside, htext⟩ := readBracket_sound hsound hlist
      refine ⟨Nat.lt_of_le_of_lt (depthOfElements_le hall) hdepth, _, ⟨inside, ?_, rfl⟩, ?_⟩
      · rwa [elementTexts_eq_map]
      · rw [hc, htext]
        simp [Bracket.list]
  split at h
  · rename_i hc
    split at h
    · cases h
    · obtain ⟨⟨members, _⟩, hobject, h⟩ := bind_eq_ok.mp h
      cases h
      obtain ⟨depth, hdepth, hsound⟩ := hinner _ rfl
      obtain ⟨hall, inside, hinside, htext⟩ := readBracket_sound (sound_member hsound) hobject
      refine ⟨Nat.lt_of_le_of_lt (depthOfMembers_le hall) hdepth, _, ⟨inside, ?_, rfl⟩, ?_⟩
      · rwa [memberTexts_eq_map]
      · rw [hc, htext]
        simp [Bracket.object]
  · cases h

/-- A reader of values is sound if the readers of values inside are sound for less deep ones. -/
theorem sound_of_inner {reader : Reader Json} {inner : Option (Reader Json)} {limit : Nat}
    (hreader : reader.read = readValue inner)
    (hinner : ∀ reader ∈ inner, ∃ depth < limit,
      Sound reader (fun v => v.depth ≤ depth) (IsText NumberText)) :
    Sound reader (fun v => v.depth ≤ limit) (IsText NumberText) where
  read := by
    intro text v rest hread
    obtain ⟨gap, hgap, htext⟩ := exists_gap text
    rw [hreader] at hread
    unfold readValue at hread
    split at hread
    · cases hread
    · rename_i hskip
      obtain ⟨hdepth, front, hfront, hbehind⟩ := readFrom_sound hinner hread
      refine ⟨hdepth, gap, front, hgap, hfront, ?_⟩
      rw [htext, hskip, hbehind, List.append_assoc]

/-- Every bracket that is read leaves one less to be open inside. -/
theorem sound_value (limit : Nat) :
    Sound (value limit) (fun v => v.depth ≤ limit) (IsText NumberText) := by
  induction limit with
  | zero =>
    have hread : (value 0).read = readValue none := by rw [value]
    refine sound_of_inner hread fun reader hnone => ?_
    cases hnone
  | succ limit ih =>
    refine sound_of_inner (read_value_succ limit) fun reader hreader => ?_
    obtain rfl := Option.some.inj hreader
    exact ⟨limit, Nat.lt_succ_self limit, ih⟩

/-! ## Documents -/

/-- The document writes the value, with space around it, and no more brackets are open at once than
the reader follows. -/
def IsSource (v : Json) (source : String) : Prop :=
  v.depth ≤ depthLimit ∧ ∃ gap text gap', IsGap gap ∧ IsText NumberText v text ∧ IsGap gap' ∧
    source.toList = gap ++ text ++ gap'

/-- A document is read to its end exactly as the value that it writes. -/
theorem isSource_iff {v : Json} {source : String} :
    IsSource v source ↔ ∃ rest, readFirst source.toList = .ok (v, rest) ∧ IsGap rest := by
  constructor
  · rintro ⟨hdepth, gap, text, gap', hgap, htext, hgap', hsource⟩
    have hterminated : Terminated (gap' ++ []) := .gap hgap' fun _ h => nomatch h
    rw [List.append_nil] at hterminated
    refine ⟨gap', ?_, hgap'⟩
    rw [hsource]
    exact (finds_value finds_number v hdepth).read hgap htext hterminated
  · rintro ⟨rest, hread, hrest⟩
    obtain ⟨hdepth, gap, text, hgap, htext, hsource⟩ := (sound_value depthLimit).read hread
    exact ⟨hdepth, gap, text, rest, hgap, htext, hrest, hsource⟩

/-- A document does not write two values. -/
theorem IsSource.unique {v w : Json} {source : String} (hv : IsSource v source)
    (hw : IsSource w source) : v = w := by
  obtain ⟨rest, hread, -⟩ := isSource_iff.mp hv
  obtain ⟨rest', hread', -⟩ := isSource_iff.mp hw
  cases hread.symm.trans hread'
  rfl

end NestedStyles.Json

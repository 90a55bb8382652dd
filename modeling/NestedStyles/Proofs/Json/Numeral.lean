import NestedStyles.Proofs.Json.Reading
import NestedStyles.Proofs.Numeric.Digits

/-!
# Numerals in JSON

A numeral is a whole number, with a fraction and a power of ten behind it or without
(`Json.UnsignedText`). What it stands for is said from its digits (`Json.numberOf`), and there is no
such number only where it is out of range. The reader finds this number at the front of every such
text (`Json.finds_number`), and reads nothing else as a number (`Json.readNumber_sound`).
-/

namespace NestedStyles.Json

/-! ## Parts of a numeral -/

/-- One digit or more. -/
structure Digits (ds : List Char) : Prop where
  ne_nil : ds ≠ []
  isDigit : ∀ c ∈ ds, c.isDigit

/-- A whole number does not begin with a zero, unless it is zero. -/
inductive WholeText : List Char → Prop
  | zero : WholeText ['0']
  | positive {c : Char} {ds : List Char} (hc : c ≠ '0') (h : ∀ d ∈ c :: ds, d.isDigit) :
      WholeText (c :: ds)

/-- A point and its digits, or nothing. -/
inductive FractionText : Option (List Char) → List Char → Prop
  | absent : FractionText none []
  | present {ds : List Char} (h : Digits ds) : FractionText (some ds) ('.' :: ds)

/-- The sign of an exponent: whether it is a minus, and the text. -/
inductive SignText : Bool → List Char → Prop
  | absent : SignText false []
  | plus : SignText false ['+']
  | minus : SignText true ['-']

/-- The mark of an exponent with its sign and its digits, or nothing. -/
inductive PowerText : Option (Bool × List Char) → List Char → Prop
  | absent : PowerText none []
  | present {mark : Char} {negative : Bool} {sign ds : List Char} (hmark : mark = 'e' ∨ mark = 'E')
      (hsign : SignText negative sign) (h : Digits ds) :
      PowerText (some (negative, ds)) (mark :: sign ++ ds)

/-! ## What a numeral stands for -/

def digitValues (ds : List Char) : List Nat := ds.map fun c => c.toNat - '0'.toNat

/-- The significand with the digits of a fraction, and how many of them it has taken up. -/
def withFraction (significand : Nat) : Option (List Char) → Nat × Option Nat
  | none => (significand, none)
  | some ds =>
    let (significand, dropped) := gather significandLimit significand (digitValues ds)
    (significand, some (ds.length - dropped))

/-- The exponent that digits stand for. A number that is not zero is out of range with a positive
exponent past the limit. -/
def exponentOf (significand : Nat) : Option (Bool × List Char) → Option Exponent
  | none => some .absent
  | some (negative, ds) =>
    let (power, dropped) := gather exponentLimit 0 (digitValues ds)
    if dropped = 0 then some (.power (if negative then -power else power))
    else if significand = 0 || negative then some .vanishing
    else none

/-- The number of a significand of which digits were dropped, with places and an exponent. -/
def scaledNumber (negative : Bool) (significand dropped : Nat) (places : Option Nat)
    (exponent : Exponent) : Option Number :=
  match exponent, places, dropped with
  | .vanishing, _, _ => some (.float (.zero negative))
  | .absent, none, 0 => some (wholeNumber negative significand)
  | _, _, _ =>
    let power := match exponent with
      | .power e => e
      | _ => 0
    (scale (.ofInt significand) (dropped - places.getD 0 + power)).map fun x =>
      .float (signed negative x)

/-- The number that the parts of a numeral stand for, if it is in range. -/
def numberOf (negative : Bool) (whole : List Char) (fraction : Option (List Char))
    (power : Option (Bool × List Char)) : Option Number :=
  let leading := gather significandLimit 0 (digitValues whole)
  let found := withFraction leading.1 fraction
  (exponentOf found.1 power).bind (scaledNumber negative found.1 leading.2 found.2)

/-- A numeral without its sign, which is told apart. -/
inductive UnsignedText (negative : Bool) (n : Number) : List Char → Prop
  | intro {whole text text' : List Char} {fraction : Option (List Char)}
      {power : Option (Bool × List Char)} (hwhole : WholeText whole)
      (hfraction : FractionText fraction text) (hpower : PowerText power text')
      (h : numberOf negative whole fraction power = some n) :
      UnsignedText negative n (whole ++ text ++ text')

/-- The texts that are read as a number. -/
inductive NumberText (n : Number) : List Char → Prop
  | unsigned {text : List Char} (h : UnsignedText false n text) : NumberText n text
  | negative {text : List Char} (h : UnsignedText true n text) : NumberText n ('-' :: text)

/-! ## Where digits end -/

/-- A text that does not begin with a digit. -/
def Stops (text : List Char) : Prop := ∀ c ∈ text.head?, c.isDigit = false

theorem Stops.cons {c : Char} (h : c.isDigit = false) (rest : List Char) : Stops (c :: rest) := by
  intro d hd
  obtain rfl := Option.some.inj hd
  exact h

section
variable {ds rest : List Char}

theorem takeWhile_isDigit_append (hds : ∀ c ∈ ds, c.isDigit) (hrest : Stops rest) :
    (ds ++ rest).takeWhile Char.isDigit = ds := by
  have hnil : rest.takeWhile Char.isDigit = [] := by
    cases rest with
    | nil => rfl
    | cons c rest => simp [hrest c rfl]
  rw [List.takeWhile_append_of_pos hds, hnil, List.append_nil]

theorem leadingDigits_append (hds : ∀ c ∈ ds, c.isDigit) (hrest : Stops rest) :
    leadingDigits (ds ++ rest) = digitValues ds :=
  congrArg digitValues (takeWhile_isDigit_append hds hrest)

theorem skipDigits_append (hds : ∀ c ∈ ds, c.isDigit) (hrest : Stops rest) :
    skipDigits (ds ++ rest) = rest := by
  rw [skipDigits, List.dropWhile_append_of_pos hds]
  cases rest with
  | nil => rfl
  | cons c rest => simp [hrest c rfl]

theorem isDigit_of_mem_takeWhile (text : List Char) :
    ∀ c ∈ text.takeWhile Char.isDigit, c.isDigit :=
  fun _ => List.mem_takeWhile_imp

theorem takeWhile_append_skipDigits (text : List Char) :
    text.takeWhile Char.isDigit ++ skipDigits text = text :=
  List.takeWhile_append_dropWhile

end

/-! ## Whole numbers -/

namespace WholeText

variable {ds : List Char} (h : WholeText ds)
include h

theorem isDigit : ∀ c ∈ ds, c.isDigit := by
  cases h with
  | zero => exact List.forall_mem_singleton.mpr rfl
  | positive _ h => exact h

theorem exists_cons : ∃ c rest, ds = c :: rest ∧ (c = '0' → rest = []) := by
  cases h with
  | zero => exact ⟨_, _, rfl, fun _ => rfl⟩
  | positive hc => exact ⟨_, _, rfl, fun h0 => absurd h0 hc⟩

end WholeText

/-- A whole number is read up to what does not go on with it. -/
theorem readWhole_append {ds rest : List Char} (h : WholeText ds) (hrest : Stops rest) :
    readWhole (ds ++ rest) = .ok (gather significandLimit 0 (digitValues ds), rest) := by
  have hleading := leadingDigits_append h.isDigit hrest
  have hskip := skipDigits_append h.isDigit hrest
  obtain ⟨c, ds, rfl, hzero⟩ := h.exists_cons
  have hc : c.isDigit := h.isDigit c List.mem_cons_self
  have halone : ¬(c = '0' && (ds ++ rest).head?.any Char.isDigit) := by
    simp only [Bool.and_eq_true, decide_eq_true_eq, not_and]
    rintro h0 hany
    rw [hzero h0, List.nil_append, Option.any_eq_true] at hany
    obtain ⟨d, hd, hdigit⟩ := hany
    rw [hrest d hd] at hdigit
    cases hdigit
  rw [List.cons_append] at hleading hskip ⊢
  rw [readWhole, if_neg (by simp [hc]), if_neg halone, hleading, hskip]

/-- What is read as a whole number is one. -/
theorem readWhole_sound {text rest : List Char} {found : Nat × Nat}
    (h : readWhole text = .ok (found, rest)) :
    ∃ ds, WholeText ds ∧ text = ds ++ rest ∧
      found = gather significandLimit 0 (digitValues ds) := by
  cases text with
  | nil => cases h
  | cons c text =>
    rw [readWhole] at h
    split at h
    · cases h
    split at h
    · cases h
    · rename_i hc hzero
      cases h
      have hdigit : c.isDigit := by simpa using hc
      have hwhole : (c :: text).takeWhile Char.isDigit = c :: text.takeWhile Char.isDigit :=
        List.takeWhile_cons_of_pos hdigit
      refine ⟨_, ?_, (takeWhile_append_skipDigits _).symm, rfl⟩
      by_cases h0 : c = '0'
      · subst h0
        have hnil : text.takeWhile Char.isDigit = [] := by
          cases text with
          | nil => rfl
          | cons d text => simpa using hzero
        rw [hwhole, hnil]
        exact .zero
      · have hall := isDigit_of_mem_takeWhile (c :: text)
        rw [hwhole] at hall ⊢
        exact .positive h0 hall

/-! ## Fractions -/

/-- A fraction is read up to what does not go on with it, and its absence as such. -/
theorem readFraction_append {fraction : Option (List Char)} {text rest : List Char}
    (h : FractionText fraction text) (significand : Nat) (hrest : Stops rest)
    (hpoint : rest.head? ≠ some '.') :
    readFraction significand (text ++ rest) = .ok (withFraction significand fraction, rest) := by
  cases h with
  | absent =>
    rw [List.nil_append]
    unfold readFraction
    split
    · exact absurd rfl hpoint
    · rfl
  | @present ds h =>
    rw [List.cons_append, readFraction, leadingDigits_append h.isDigit hrest,
      skipDigits_append h.isDigit hrest, if_neg (by simpa [digitValues] using h.ne_nil)]
    simp [withFraction, digitValues]

theorem readFraction_sound {significand : Nat} {text rest : List Char} {found : Nat × Option Nat}
    (h : readFraction significand text = .ok (found, rest)) :
    ∃ fraction front, FractionText fraction front ∧ text = front ++ rest ∧
      found = withFraction significand fraction := by
  unfold readFraction at h
  split at h
  · rename_i behind
    dsimp only at h
    split at h
    · cases h
    · rename_i hdigits
      cases h
      refine ⟨_, _, .present ⟨?_, isDigit_of_mem_takeWhile behind⟩, ?_, ?_⟩
      · simpa [leadingDigits] using hdigits
      · rw [List.cons_append, takeWhile_append_skipDigits]
      · simp [withFraction, digitValues, leadingDigits]
  · cases h
    exact ⟨_, _, .absent, rfl, rfl⟩

/-! ## Powers of ten -/

theorem exponentSign_append {negative : Bool} {sign text : List Char} (h : SignText negative sign)
    (htext : ∀ c ∈ text.head?, c.isDigit) : exponentSign (sign ++ text) = (negative, text) := by
  cases h with
  | absent =>
    rw [List.nil_append]
    unfold exponentSign
    split
    · exact absurd (htext '-' rfl) (by decide)
    · exact absurd (htext '+' rfl) (by decide)
    · rfl
  | plus => rfl
  | minus => rfl

theorem exponentSign_sound (text : List Char) :
    ∃ sign, SignText (exponentSign text).1 sign ∧ text = sign ++ (exponentSign text).2 := by
  unfold exponentSign
  split
  · exact ⟨_, .minus, rfl⟩
  · exact ⟨_, .plus, rfl⟩
  · exact ⟨_, .absent, rfl⟩

/-- A power is read where there is a digit and the exponent that the digits stand for is in
range. -/
theorem readPower_eq_ok_iff {significand : Nat} {text rest : List Char} {exponent : Exponent} :
    readPower significand text = .ok (exponent, rest) ↔
      (exponentSign text).2.takeWhile Char.isDigit ≠ [] ∧ rest = skipDigits (exponentSign text).2 ∧
        exponentOf significand (some ((exponentSign text).1,
          (exponentSign text).2.takeWhile Char.isDigit)) = some exponent := by
  unfold readPower exponentOf leadingDigits digitValues
  dsimp only
  by_cases hempty : (exponentSign text).2.takeWhile Char.isDigit = []
  · rw [if_pos (by simp [hempty])]
    refine iff_of_false (fun hread => ?_) fun h => h.1 hempty
    cases hread
  · rw [if_neg (by simpa using hempty), and_iff_right hempty]
    split_ifs <;> simp [and_comm, eq_comm]

/-- An exponent is read up to what does not go on with it, and its absence as such. -/
theorem readExponent_append {power : Option (Bool × List Char)} {text rest : List Char}
    (h : PowerText power text) {significand : Nat} {exponent : Exponent}
    (hexponent : exponentOf significand power = some exponent) (hrest : Stops rest)
    (hmark : ∀ c ∈ rest.head?, c ≠ 'e' ∧ c ≠ 'E') :
    readExponent significand (text ++ rest) = .ok (exponent, rest) := by
  cases h with
  | absent =>
    cases hexponent
    cases rest with
    | nil => rfl
    | cons c rest =>
      obtain ⟨he, hE⟩ := hmark c rfl
      rw [List.nil_append, readExponent, if_neg (by simp [he, hE])]
  | @present mark negative sign ds hmark hsign h =>
    have hhead : ∀ c ∈ (ds ++ rest).head?, c.isDigit := by
      obtain ⟨d, ds, rfl⟩ := List.exists_cons_of_ne_nil h.ne_nil
      intro c hc
      obtain rfl := Option.some.inj hc
      exact h.isDigit d List.mem_cons_self
    rw [List.append_assoc, List.cons_append, readExponent, if_pos (by simpa using hmark),
      readPower_eq_ok_iff, exponentSign_append hsign hhead,
      takeWhile_isDigit_append h.isDigit hrest, skipDigits_append h.isDigit hrest]
    exact ⟨h.ne_nil, rfl, hexponent⟩

/-- What is read as an exponent is one, within its limit or past it. -/
theorem readExponent_sound {significand : Nat} {text rest : List Char} {exponent : Exponent}
    (h : readExponent significand text = .ok (exponent, rest)) :
    ∃ power front, PowerText power front ∧ text = front ++ rest ∧
      exponentOf significand power = some exponent := by
  cases text with
  | nil =>
    cases h
    exact ⟨_, _, .absent, rfl, rfl⟩
  | cons c text =>
    rw [readExponent] at h
    split at h
    · rename_i hmark
      obtain ⟨sign, hsign, htext⟩ := exponentSign_sound text
      obtain ⟨hdigits, rfl, hexponent⟩ := readPower_eq_ok_iff.mp h
      refine ⟨_, _, .present (by simpa using hmark) hsign ⟨hdigits, isDigit_of_mem_takeWhile _⟩,
        ?_, hexponent⟩
      rw [List.append_assoc, takeWhile_append_skipDigits, List.cons_append, ← htext]
    · cases h
      exact ⟨_, _, .absent, rfl, rfl⟩

/-! ## Numbers -/

/-- Reading a number with the calculation apart: `scaledNumber` takes what the three parts have
given. -/
theorem readNumber_eq (negative : Bool) (text : List Char) :
    readNumber negative text = (do
      let ((whole, dropped), rest) ← readWhole text
      let ((significand, places), rest) ← readFraction whole rest
      let (exponent, rest) ← readExponent significand rest
      match scaledNumber negative significand dropped places exponent with
      | some n => .ok (n, rest)
      | none => failBefore .numberOutOfRange rest) := by
  unfold readNumber
  refine bind_congr fun ⟨⟨whole, dropped⟩, rest⟩ => bind_congr fun ⟨⟨significand, places⟩, rest⟩ =>
    bind_congr fun ⟨exponent, rest⟩ => ?_
  cases exponent with
  | vanishing => rfl
  | power e =>
    dsimp only [scaledNumber]
    generalize scale _ _ = found
    cases found <;> rfl
  | absent =>
    rcases places, dropped with ⟨_ | places, _ | dropped⟩
    · rfl
    all_goals
      dsimp only [scaledNumber]
      generalize scale _ _ = found
      cases found <;> rfl

/-- What can stand behind a value neither goes on with a numeral nor begins one. -/
theorem Terminated.head {rest : List Char} (h : Terminated rest) :
    ∀ c ∈ rest.head?, c.isDigit = false ∧ c ≠ '.' ∧ c ≠ 'e' ∧ c ≠ 'E' := by
  intro c hc
  rcases h c hc with hspace | rfl | rfl | rfl
  · simp only [isSpace, Bool.or_eq_true, decide_eq_true_eq] at hspace
    rcases hspace with ((rfl | rfl) | rfl) | rfl <;> decide
  all_goals decide

theorem PowerText.stops {power : Option (Bool × List Char)} {text rest : List Char}
    (h : PowerText power text) (hrest : Terminated rest) :
    Stops (text ++ rest) ∧ (text ++ rest).head? ≠ some '.' := by
  cases h with
  | absent => exact ⟨fun c hc => (hrest.head c hc).1, fun hc => (hrest.head '.' hc).2.1 rfl⟩
  | present hmark => rcases hmark with rfl | rfl <;> exact ⟨.cons rfl _, by simp⟩

theorem FractionText.stops {fraction : Option (List Char)} {text rest : List Char}
    (h : FractionText fraction text) (hrest : Stops rest) : Stops (text ++ rest) := by
  cases h with
  | absent => exact hrest
  | present => exact .cons rfl _

/-- A number is read from each of its texts, where the text behind ends it. -/
theorem readNumber_append {negative : Bool} {n : Number} {text rest : List Char}
    (h : UnsignedText negative n text) (hrest : Terminated rest) :
    readNumber negative (text ++ rest) = .ok (n, rest) := by
  obtain ⟨hwhole, hfraction, hpower, h⟩ := h
  obtain ⟨hstops, hpoint⟩ := hpower.stops hrest
  rw [numberOf, Option.bind_eq_some_iff] at h
  obtain ⟨exponent, hexponent, hn⟩ := h
  have hend := readExponent_append hpower hexponent (fun c hc => (hrest.head c hc).1)
    fun c hc => (hrest.head c hc).2.2
  rw [List.append_assoc, List.append_assoc, readNumber_eq,
    readWhole_append hwhole (hfraction.stops hstops)]
  simp only [bind, Except.bind, readFraction_append hfraction _ hstops hpoint, hend, hn]

/-- Nothing but numerals in range is read as a number. -/
theorem readNumber_sound {negative : Bool} {n : Number} {text rest : List Char}
    (h : readNumber negative text = .ok (n, rest)) :
    ∃ front, UnsignedText negative n front ∧ text = front ++ rest := by
  rw [readNumber_eq] at h
  obtain ⟨⟨⟨leading, dropped⟩, behind⟩, hreadWhole, hread⟩ := bind_eq_ok.mp h
  obtain ⟨⟨⟨significand, places⟩, behind'⟩, hreadFraction, hread⟩ := bind_eq_ok.mp hread
  obtain ⟨⟨exponent, behind''⟩, hreadExponent, hread⟩ := bind_eq_ok.mp hread
  obtain ⟨whole, hwhole, htext, hleading⟩ := readWhole_sound hreadWhole
  obtain ⟨fraction, front, hfraction, hbehind, hfound⟩ := readFraction_sound hreadFraction
  obtain ⟨power, front', hpower, hbehind', hexponent⟩ := readExponent_sound hreadExponent
  dsimp only at hread
  split at hread
  · rename_i hn
    cases hread
    refine ⟨_, .intro hwhole hfraction hpower ?_, ?_⟩
    · rw [numberOf, ← hleading, ← hfound]
      exact Option.bind_eq_some_iff.mpr ⟨exponent, hexponent, hn⟩
    · rw [htext, hbehind, hbehind', List.append_assoc, List.append_assoc]
  · cases hread

/-! ## Values -/

theorem readFrom_digit {inner : Option (Reader Json)} {c : Char} (hc : c.isDigit)
    (rest : List Char) :
    readFrom inner c rest = (readNumber false (c :: rest)).map fun found =>
      (number found.1, found.2) := by
  have hne {d : Char} (hd : d.isDigit = false) : c ≠ d := by
    rintro rfl
    rw [hc] at hd
    cases hd
  unfold readFrom
  rw [if_neg (hne rfl), if_neg (hne rfl), if_neg (hne rfl), if_neg (hne rfl), if_neg (hne rfl),
    if_pos hc]
  cases readNumber false (c :: rest) <;> rfl

theorem opens_digit {c : Char} (hc : c.isDigit) (rest : List Char) : Opens (c :: rest) := by
  refine .cons ⟨Bool.eq_false_iff.mpr fun hspace => ?_, ?_, ?_⟩ rest
  · simp only [isSpace, Bool.or_eq_true, decide_eq_true_eq] at hspace
    rcases hspace with ((rfl | rfl) | rfl) | rfl <;> cases hc
  all_goals rintro rfl; cases hc

/-- The reader of values finds a number in each of its texts. -/
theorem finds_number (limit : Nat) (n : Number) :
    Finds (value limit) (number n) (NumberText n) := by
  obtain ⟨inner, hinner⟩ := exists_read_value limit
  refine .of_readFrom hinner ?_
  rintro _ (⟨h⟩ | ⟨h⟩)
  · have hread {rest : List Char} (hrest : Terminated rest) := readNumber_append h hrest
    obtain ⟨hwhole, -, -, -⟩ := h
    obtain ⟨c, ds, rfl, -⟩ := hwhole.exists_cons
    have hc : c.isDigit := hwhole.isDigit c List.mem_cons_self
    refine ⟨opens_digit hc _, c, _, rfl, fun rest hrest => ?_⟩
    rw [readFrom_digit hc]
    exact congrArg _ (hread hrest)
  · refine ⟨.cons (by decide) _, '-', _, rfl, fun rest hrest => ?_⟩
    simp [readFrom, readNumber_append h hrest, bind, Except.bind]

end NestedStyles.Json

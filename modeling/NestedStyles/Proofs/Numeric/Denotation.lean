import NestedStyles.Proofs.Numeric.Shortest

/-!
# What numerals denote

A numeral denotes a rational (`denoted?`), and in whichever way digits are laid out, the numeral
denotes the decimal that they are the digits of (`unsignedValue?_of_laidOut`). So the text of a
finite number denotes its shortest decimal, which is rounded back to the number, and two numbers
have one text only if they are equal or both NaN (`Binary64.text_lossless`).
-/

namespace NestedStyles

/-! ## Reading numerals -/

/-- What stands in front of the first mark, and what stands behind it if there is one. -/
def cutAt (mark : Char) : List Char → List Char × Option (List Char)
  | [] => ([], none)
  | c :: cs =>
    if c = mark then ([], some cs)
    else (c :: (cutAt mark cs).1, (cutAt mark cs).2)

/-- The natural number that digits denote. -/
def naturalValue? (cs : List Char) : Option Nat :=
  if cs ≠ [] ∧ cs.all Char.isDigit then some (digitsValue cs) else none

/-- The value of digits with at most one point among them. -/
def fixedValue? (cs : List Char) : Option Rat :=
  match cutAt '.' cs with
  | (whole, none) => (naturalValue? whole).map Nat.cast
  | (whole, some fraction) => do
    let units ← naturalValue? whole
    let part ← naturalValue? fraction
    return units + part / 10 ^ fraction.length

/-- The integer that the exponent of a numeral denotes, which has a sign in front or none. -/
def powerValue? (cs : List Char) : Option Int :=
  match cs with
  | '+' :: ds => (naturalValue? ds).map Nat.cast
  | '-' :: ds => (naturalValue? ds).map fun n => -(n : Int)
  | ds => (naturalValue? ds).map Nat.cast

/-- The rational that a numeral without a sign denotes, with or without an exponent. -/
def unsignedValue? (cs : List Char) : Option Rat :=
  match cutAt 'e' cs with
  | (mantissa, none) => fixedValue? mantissa
  | (mantissa, some power) => do
    let value ← fixedValue? mantissa
    let exponent ← powerValue? power
    return value * 10 ^ exponent

/-- The rational that a numeral denotes: digits, a point with digits behind it or none, and a power
of ten or none. -/
def denoted? (cs : List Char) : Option Rat :=
  match cs with
  | '-' :: rest => (unsignedValue? rest).map fun q => -q
  | rest => unsignedValue? rest

theorem cutAt_of_notMem {mark : Char} {cs : List Char} (h : mark ∉ cs) :
    cutAt mark cs = (cs, none) := by
  induction cs with
  | nil => rfl
  | cons c cs ih =>
    rw [List.mem_cons, not_or] at h
    obtain ⟨hc, hcs⟩ := h
    rw [cutAt, if_neg (Ne.symm hc), ih hcs]

theorem cutAt_append_cons {mark : Char} {front : List Char} (h : mark ∉ front)
    (behind : List Char) : cutAt mark (front ++ mark :: behind) = (front, some behind) := by
  induction front with
  | nil => exact if_pos rfl
  | cons c front ih =>
    rw [List.mem_cons, not_or] at h
    obtain ⟨hc, hfront⟩ := h
    rw [List.cons_append, cutAt, if_neg (Ne.symm hc), ih hfront]

section
variable {ds es : List Char}

theorem naturalValue?_digits (hne : ds ≠ []) (hds : ∀ c ∈ ds, c.isDigit) :
    naturalValue? ds = some (digitsValue ds) :=
  if_pos ⟨hne, List.all_eq_true.mpr hds⟩

theorem notMem_digits {c : Char} (hc : c.isDigit = false) (hds : ∀ c ∈ ds, c.isDigit) : c ∉ ds := by
  intro hmem
  rw [hds c hmem] at hc
  cases hc

theorem fixedValue?_digits (hne : ds ≠ []) (hds : ∀ c ∈ ds, c.isDigit) :
    fixedValue? ds = some (⟨digitsValue ds, 0⟩ : Decimal).toRat := by
  rw [fixedValue?, cutAt_of_notMem (notMem_digits rfl hds)]
  simp [naturalValue?_digits hne hds, Decimal.toRat]

/-- Digits behind the point are digits of a finer grid. -/
theorem fixedValue?_point (hdsne : ds ≠ []) (hds : ∀ c ∈ ds, c.isDigit) (hesne : es ≠ [])
    (hes : ∀ c ∈ es, c.isDigit) :
    fixedValue? (ds ++ '.' :: es) =
      some (⟨digitsValue (ds ++ es), -es.length⟩ : Decimal).toRat := by
  rw [fixedValue?, cutAt_append_cons (notMem_digits rfl hds)]
  simp only [naturalValue?_digits hdsne hds, naturalValue?_digits hesne hes, Option.bind_eq_bind,
    Option.bind_some, Option.pure_def, Decimal.toRat, digitsValue_append]
  rw [zpow_neg, zpow_natCast]
  push_cast
  field_simp

theorem powerValue?_digits (hne : ds ≠ []) (hds : ∀ c ∈ ds, c.isDigit) (negative : Bool) :
    powerValue? ((if negative then '-' else '+') :: ds) =
      some (if negative then -(digitsValue ds : Int) else digitsValue ds) := by
  cases negative <;> simp [powerValue?, naturalValue?_digits hne hds]

theorem unsignedValue?_fixed {cs : List Char} (h : 'e' ∉ cs) :
    unsignedValue? cs = fixedValue? cs := by
  rw [unsignedValue?, cutAt_of_notMem h]

/-- The digits in front of an exponent: one before the point. -/
theorem fixedValue?_lead {lead : Char} (h : ∀ c ∈ lead :: ds, c.isDigit) :
    fixedValue? (lead :: if ds.isEmpty then [] else '.' :: ds) =
      some (⟨digitsValue (lead :: ds), -ds.length⟩ : Decimal).toRat := by
  have hlead : ∀ c ∈ [lead], c.isDigit := by
    simpa using h lead List.mem_cons_self
  cases ds with
  | nil => exact fixedValue?_digits (List.cons_ne_nil lead []) hlead
  | cons d ds =>
    exact fixedValue?_point (List.cons_ne_nil lead []) hlead (List.cons_ne_nil d ds)
      fun c hc => h c (List.mem_cons_of_mem lead hc)

theorem unsignedValue?_power {mantissa power : List Char} {value : Rat} {exponent : Int}
    (he : 'e' ∉ mantissa) (hmantissa : fixedValue? mantissa = some value)
    (hpower : powerValue? power = some exponent) :
    unsignedValue? (mantissa ++ 'e' :: power) = some (value * 10 ^ exponent) := by
  rw [unsignedValue?, cutAt_append_cons he]
  simp only [hmantissa, hpower, Option.bind_eq_bind, Option.bind_some, Option.pure_def]

/-- Every layout of the digits denotes the same rational. -/
theorem unsignedValue?_of_laidOut {point : Int} {cs : List Char} (h : LaidOut ds point cs)
    (hne : ds ≠ []) (hds : ∀ c ∈ ds, c.isDigit) :
    unsignedValue? cs = some (⟨digitsValue ds, point - ds.length⟩ : Decimal).toRat := by
  have hzeros {n : Nat} : ∀ c ∈ List.replicate n '0', c.isDigit := by
    intro c hc
    obtain rfl := List.eq_of_mem_replicate hc
    rfl
  cases h with
  | @padded ds zeros _ =>
    have hall : ∀ c ∈ ds ++ List.replicate zeros '0', c.isDigit := fun c hc =>
      (List.mem_append.mp hc).elim (hds c) (hzeros c)
    rw [unsignedValue?_fixed (notMem_digits rfl hall),
      fixedValue?_digits (List.append_ne_nil_of_left_ne_nil hne _) hall, digitsValue_append,
      digitsValue_replicate_zero, Nat.add_zero, List.length_replicate, Decimal.toRat_refine]
    push_cast
    rw [add_zero, add_sub_cancel_left]
  | @parted whole fraction hwhole hfraction _ =>
    obtain ⟨hw, hf⟩ := List.forall_mem_append.mp hds
    have he : 'e' ∉ whole ++ '.' :: fraction := by
      simp [notMem_digits (c := 'e') rfl hw, notMem_digits (c := 'e') rfl hf]
    rw [unsignedValue?_fixed he, fixedValue?_point hwhole hw hfraction hf, List.length_append]
    push_cast
    rw [sub_add_cancel_left]
  | @small ds zeros _ =>
    have hfraction : ∀ c ∈ List.replicate zeros '0' ++ ds, c.isDigit :=
      List.forall_mem_append.mpr ⟨hzeros, hds⟩
    have he : 'e' ∉ '0' :: '.' :: (List.replicate zeros '0' ++ ds) := by
      simpa using notMem_digits (c := 'e') rfl hfraction
    have hvalue := fixedValue?_point (List.cons_ne_nil '0' []) (by simp)
      (List.append_ne_nil_of_right_ne_nil _ hne) hfraction
    -- the zeros on both sides of the point are zeros in front of the digits
    have hvanish : digitsValue (['0'] ++ (List.replicate zeros '0' ++ ds)) = digitsValue ds :=
      digitsValue_zeros_append (zeros + 1) ds
    rw [hvanish, List.length_append, List.length_replicate] at hvalue
    have hexponent : -(zeros : Int) - ds.length = -(zeros + ds.length : Nat) := by
      rw [Nat.cast_add, neg_add']
    rw [unsignedValue?_fixed he, hexponent]
    exact hvalue
  | @power lead fraction point hrange =>
    have hmantissa := fixedValue?_lead hds
    have hpower := powerValue?_digits (Nat.toDigits_ne_nil (n := (point - 1).natAbs) (b := 10))
      (fun _ => isDigit_of_mem_toDigits) (decide (point ≤ 0))
    have he : 'e' ∉ lead :: if fraction.isEmpty then [] else '.' :: fraction := by
      have hnotMem := notMem_digits (c := 'e') rfl hds
      split <;> simp_all
    have hexponent : (if point ≤ 0 then -((point - 1).natAbs : Int) else (point - 1).natAbs) =
        point - 1 := by
      split <;> omega
    simp only [decide_eq_true_eq, digitsValue_toDigits, hexponent] at hpower
    rw [← List.cons_append, unsignedValue?_power he hmantissa hpower, Decimal.toRat, mul_assoc,
      ← zpow_add₀ (by norm_num), Decimal.toRat, List.length_cons]
    congr 3
    push_cast
    ring

theorem denoted?_of_head_isDigit {c : Char} (h : c.isDigit) (rest : List Char) :
    denoted? (c :: rest) = unsignedValue? (c :: rest) := by
  unfold denoted?
  split
  · next heq =>
    obtain ⟨rfl, -⟩ := List.cons.inj heq
    cases h
  · rfl

theorem denoted?_signed {point : Int} {cs : List Char} (h : LaidOut ds point cs) (hne : ds ≠ [])
    (hds : ∀ c ∈ ds, c.isDigit) (negative : Bool) :
    denoted? (if negative then '-' :: cs else cs) =
      some ((if negative then -1 else 1) *
        (⟨digitsValue ds, point - ds.length⟩ : Decimal).toRat) := by
  have hvalue := unsignedValue?_of_laidOut h hne hds
  obtain ⟨c, rest, rfl, hc⟩ := h.head_isDigit hne hds
  cases negative with
  | false =>
    rw [if_neg Bool.false_ne_true, if_neg Bool.false_ne_true, denoted?_of_head_isDigit hc, hvalue,
      one_mul]
  | true =>
    rw [if_pos rfl, if_pos rfl, neg_one_mul, denoted?, hvalue, Option.map_some]

end

namespace Binary64

/-! ## Texts of numbers -/

variable {x y : Binary64}

/-- The text of a finite number other than zero denotes its shortest decimal, with its sign. -/
theorem denoted?_text (hfinite : x.isFinite) (h0 : x.rank ≠ 0) : denoted? x.text.toList =
    some ((if x.negative then -1 else 1) * (shortest x.rank).toRat) := by
  obtain ⟨hdigits, hlayout⟩ := laidOut_numeral (Nat.pos_of_ne_zero h0) (isFinite_iff.mp hfinite)
  rw [toList_text hfinite h0, denoted?_signed hlayout hdigits.ne_nil hdigits.isDigit,
    ← Decimal.toRat_eq_digits]

/-- A rational that rounds to a magnitude rounds to the number of its own sign. -/
theorem ofRat_signed {q : Rat} (hq : 0 < q) (h : rankOfRat q = x.rank) :
    ofRat ((if x.negative then -1 else 1) * q) = x := by
  rw [ofRat_eq]
  refine Eq.trans ?_ (ofRank_rank x)
  cases x.negative with
  | false => simp [h, hq.not_gt]
  | true => simp [h, hq, rankOfRat_neg]

/-- The number, up to what its text does not tell: zero has no sign, and all NaNs are one. -/
def canonical (x : Binary64) : Binary64 :=
  if x.isNaN then nan else if x.rank = 0 then zero false else x

theorem isNaN_canonical : x.canonical.isNaN = x.isNaN := by
  unfold canonical
  split
  · next hnan => rw [hnan]; decide +kernel
  split
  · next hzero => rw [isNaN, isNaN, hzero]; rfl
  · rfl

theorem rank_canonical (h : x.isNaN = false) : x.canonical.rank = x.rank := by
  rw [canonical, h, if_neg Bool.false_ne_true]
  split
  · next hzero => rw [hzero]; rfl
  · rfl

/-- Two numbers have one canonical number exactly if they are equal, or both are none. -/
theorem canonical_eq_iff : x.canonical = y.canonical ↔ x.agrees y ∨ x.isNaN ∧ y.isNaN := by
  constructor
  · intro h
    have hnan : x.isNaN = y.isNaN := by rw [← isNaN_canonical, h, isNaN_canonical]
    cases hx : x.isNaN with
    | true => exact .inr ⟨rfl, hnan ▸ hx⟩
    | false =>
      have hy := hnan ▸ hx
      have hrank : x.rank = y.rank := by rw [← rank_canonical hx, h, rank_canonical hy]
      refine .inl (agrees_iff.mpr ⟨hx, hy, hrank, ?_⟩)
      by_cases hzero : x.rank = 0
      · exact .inl hzero
      · rw [canonical, canonical, hx, hy, if_neg Bool.false_ne_true, if_neg Bool.false_ne_true,
          if_neg hzero, if_neg (hrank ▸ hzero)] at h
        exact .inr (congrArg _ h)
  · rintro (h | ⟨hx, hy⟩)
    · obtain ⟨hx, hy, hrank, hzero | hsign⟩ := agrees_iff.mp h
      · simp [canonical, hx, hy, ← hrank, hzero]
      · rw [← ofRank_rank x, hrank, hsign, ofRank_rank]
    · rw [canonical, canonical, if_pos hx, if_pos hy]

theorem canonical_of_isFinite (h : x.isFinite) :
    x.canonical = if x.rank = 0 then zero false else x := by
  have hnan : x.isNaN = false := decide_eq_false (not_lt.mpr (isFinite_iff.mp h).le)
  rw [canonical, hnan, if_neg Bool.false_ne_true]

/-- The shortest decimal, with the sign of a number, is rounded to the number. -/
theorem exists_denoted (h : x.isFinite) : ∃ q, denoted? x.text.toList = some q ∧
    (x.rank ≠ 0 → q = (if x.negative then -1 else 1) * (shortest x.rank).toRat) ∧
    (x.rank = 0 → q = 0) ∧ rankOfRat q = x.rank ∧ ofRat q = x.canonical := by
  rw [canonical_of_isFinite h]
  by_cases h0 : x.rank = 0
  · rw [text_of_rank_eq_zero h0, if_pos h0, h0]
    refine ⟨0, ?_, fun hne => absurd rfl hne, fun _ => rfl, rankOfRat_zero, ?_⟩
    · have hdigit : fixedValue? ['0'] = some 0 := by
        simp [fixedValue?, cutAt, naturalValue?, digitsValue_cons]
      exact hdigit
    · rw [ofRat_eq, rankOfRat_zero]
      rfl
  · have hrank := rankOfRat_shortest (Nat.pos_of_ne_zero h0) (isFinite_iff.mp h)
    have hpos : 0 < (shortest x.rank).toRat := by
      refine (shortest x.rank).toRat_nonneg.lt_of_ne' fun hzero => h0 ?_
      rw [← hrank, hzero, rankOfRat_zero]
    refine ⟨_, denoted?_text h h0, fun _ => rfl, fun hzero => absurd hzero h0, ?_, ?_⟩
    · split
      · rw [neg_one_mul, rankOfRat_neg, hrank]
      · rw [one_mul, hrank]
    · rw [if_neg h0, ofRat_signed hpos hrank]

/-- The number that a text is read as. -/
def ofText (s : String) : Binary64 :=
  match denoted? s.toList with
  | some q => ofRat q
  | none =>
    if s = "Infinity" then infinity false else if s = "-Infinity" then infinity true else nan

/-- A text is read back as the canonical one of the numbers that are written so. -/
theorem ofText_text (x : Binary64) : ofText x.text = x.canonical := by
  obtain hlt | heq | hgt := Nat.lt_trichotomy x.rank infinityRank
  · obtain ⟨q, hq, -, -, -, hcanonical⟩ := exists_denoted (isFinite_iff.mpr hlt)
    rw [ofText, hq]
    exact hcanonical
  · have hnan : x.isNaN = false := decide_eq_false (not_lt.mpr heq.le)
    have hinfinite : x.isInfinite = true := beq_iff_eq.mpr heq
    have hne : x.rank ≠ 0 := heq.trans_ne (by decide)
    rw [text, canonical, hnan, hinfinite, if_neg Bool.false_ne_true, if_neg Bool.false_ne_true,
      if_pos rfl, if_neg hne]
    refine Eq.trans ?_ ((congrArg _ heq.symm).trans (ofRank_rank x))
    cases x.negative <;> rfl
  · have hnan : x.isNaN = true := decide_eq_true hgt
    rw [text, canonical, if_pos hnan, if_pos hnan]
    rfl

/-- The text of a finite number denotes its shortest decimal in whichever way it is laid out, and
rounding that gives the number back, but for the sign of zero. So numbers have one text exactly if
they are equal, or both no number at all. -/
theorem text_lossless (x : Binary64) :
    (x.isFinite → ∃ q, denoted? x.text.toList = some q ∧
      (x.rank ≠ 0 → IsShortest (shortest x.rank) x.rank ∧
        q = (if x.negative then -1 else 1) * (digitsValue (shortest x.rank).digits *
          10 ^ ((shortest x.rank).point - (shortest x.rank).digits.length))) ∧
      (x.rank = 0 → q = 0) ∧
      (ofRat q).IsRounding q ∧ ofRat q = if x.rank = 0 then zero false else x) ∧
    ∀ y : Binary64, x.text = y.text ↔ x.agrees y ∨ x.isNaN ∧ y.isNaN := by
  refine ⟨fun h => ?_, fun y => ?_⟩
  · obtain ⟨q, hdenoted, hvalue, hzero, hrank, hback⟩ := exists_denoted h
    have hfinite := isFinite_iff.mp h
    refine ⟨q, hdenoted, fun h0 => ⟨?_, ?_⟩, hzero, isRounding_ofRat (hrank ▸ hfinite), ?_⟩
    · exact isShortest_shortest (Nat.pos_of_ne_zero h0) hfinite
    · rw [hvalue h0, Decimal.toRat_eq_digits, Decimal.toRat]
    · rw [hback, canonical_of_isFinite h]
  · constructor
    · intro h
      rw [← canonical_eq_iff, ← ofText_text, h, ofText_text]
    · rintro (h | ⟨hx, hy⟩)
      · exact text_eq_of_agrees h
      · rw [text, text, if_pos hx, if_pos hy]

/-- The number closest to a tenth is written as a tenth, which is rounded to it again. -/
theorem text_lossless_tenth :
    (⟨0x3FB999999999999A⟩ : Binary64).isFinite ∧ (⟨0x3FB999999999999A⟩ : Binary64).rank ≠ 0 ∧
      (⟨0x3FB999999999999A⟩ : Binary64).text = "0.1" ∧ denoted? "0.1".toList = some (1 / 10) ∧
      ofRat (1 / 10) = ⟨0x3FB999999999999A⟩ := by
  have hfinite : (⟨0x3FB999999999999A⟩ : Binary64).isFinite := by decide +kernel
  have h0 : (⟨0x3FB999999999999A⟩ : Binary64).rank ≠ 0 := by decide +kernel
  have htext : (⟨0x3FB999999999999A⟩ : Binary64).text = "0.1" := by decide +kernel
  have hpositive : (⟨0x3FB999999999999A⟩ : Binary64).negative = false := by decide +kernel
  have hshortest : shortest (⟨0x3FB999999999999A⟩ : Binary64).rank = ⟨1, -1⟩ := by decide +kernel
  obtain ⟨q, hdenoted, hvalue, -, -, hback⟩ := (text_lossless ⟨0x3FB999999999999A⟩).1 hfinite
  have hq := (hvalue h0).2
  rw [hpositive, hshortest, show (⟨1, -1⟩ : Decimal).digits = ['1'] by decide,
    show (⟨1, -1⟩ : Decimal).point = 0 by decide, show digitsValue ['1'] = 1 by rfl] at hq
  obtain rfl : q = 1 / 10 := by
    rw [hq]
    norm_num
  exact ⟨hfinite, h0, htext, htext ▸ hdenoted, hback.trans (if_neg h0)⟩

end Binary64
end NestedStyles

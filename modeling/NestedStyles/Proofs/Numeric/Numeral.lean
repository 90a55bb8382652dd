import NestedStyles.Numeric.Numeral

/-!
# Numerals and their characters

A numeral is made of digits, a point, an exponent and signs, and the numbers that have no numeral
are words. Digits are laid out in one of four ways, told apart by the place of the point
(`laidOut_layOut`).
-/

namespace NestedStyles

/-! ## The four layouts -/

/-- The numerals of digits with the point at a place: one form for each range of the place. -/
inductive LaidOut : List Char → Int → List Char → Prop
  /-- A natural, with zeros up to the point. -/
  | padded {ds : List Char} {zeros : Nat} (hrange : ds.length + zeros ≤ 21) :
      LaidOut ds (ds.length + zeros : Nat) (ds ++ List.replicate zeros '0')
  /-- The point between the digits. -/
  | parted {whole fraction : List Char} (hwhole : whole ≠ []) (hfraction : fraction ≠ [])
      (hrange : whole.length ≤ 21) :
      LaidOut (whole ++ fraction) whole.length (whole ++ '.' :: fraction)
  /-- The point in front of the digits and of a few zeros. -/
  | small {ds : List Char} {zeros : Nat} (hrange : zeros < 6) :
      LaidOut ds (-zeros) ('0' :: '.' :: (List.replicate zeros '0' ++ ds))
  | power {lead : Char} {fraction : List Char} {point : Int} (hrange : point ≤ -6 ∨ 21 < point) :
      LaidOut (lead :: fraction) point
        (lead :: ((if fraction.isEmpty then [] else '.' :: fraction) ++
          'e' :: (if point ≤ 0 then '-' else '+') :: Nat.toDigits 10 (point - 1).natAbs))

/-- Every numeral has one of the four layouts. -/
theorem laidOut_layOut {ds : List Char} (hds : ds ≠ []) (point : Int) :
    LaidOut ds point (layOut ds point) := by
  unfold layOut
  split
  · next h =>
    obtain ⟨zeros, rfl⟩ := Int.le.dest h.1
    rw [← Int.natCast_add, Int.toNat_natCast, Nat.add_sub_cancel_left]
    exact .padded (by omega)
  split
  · next hpadded h =>
    obtain ⟨n, rfl⟩ := Int.eq_ofNat_of_zero_le (Int.le_of_lt h.1)
    have hlength : n < ds.length := by omega
    have htake : (ds.take n).length = n := List.length_take_of_le (Nat.le_of_lt hlength)
    have hdrop : 0 < (ds.drop n).length := List.length_drop ▸ Nat.sub_pos_of_lt hlength
    have hparted : LaidOut (ds.take n ++ ds.drop n) (ds.take n).length _ :=
      .parted (List.ne_nil_of_length_pos (by omega)) (List.ne_nil_of_length_pos hdrop) (by omega)
    rwa [List.take_append_drop, htake] at hparted
  split
  · next h =>
    obtain ⟨zeros, rfl⟩ := Int.exists_eq_neg_ofNat h.2
    rw [Int.neg_neg, Int.toNat_natCast]
    exact .small (by omega)
  · obtain ⟨lead, fraction, rfl⟩ := List.exists_cons_of_ne_nil hds
    rw [List.length_cons] at *
    exact .power (by omega)

theorem LaidOut.head_isDigit {ds cs : List Char} {point : Int} (h : LaidOut ds point cs)
    (hne : ds ≠ []) (hds : ∀ c ∈ ds, c.isDigit) : ∃ c rest, cs = c :: rest ∧ c.isDigit := by
  cases h with
  | padded _ =>
    obtain ⟨c, rest, rfl⟩ := List.exists_cons_of_ne_nil hne
    exact ⟨c, _, rfl, hds c List.mem_cons_self⟩
  | parted hwhole _ _ =>
    obtain ⟨c, rest, rfl⟩ := List.exists_cons_of_ne_nil hwhole
    exact ⟨c, _, rfl, hds c (List.mem_append_left _ List.mem_cons_self)⟩
  | small _ => exact ⟨'0', _, rfl, rfl⟩
  | power _ => exact ⟨_, _, rfl, hds _ List.mem_cons_self⟩

/-! ## Characters -/

/-- Whether a character can stand in the text of a number. -/
def isNumeric (c : Char) : Bool := c.isDigit || "+-.eINafinty".toList.contains c

theorem isNumeric_of_isDigit {c : Char} (h : c.isDigit) : isNumeric c := by simp [isNumeric, h]

theorem isNumeric_of_mem_toDigits {n : Nat} {c : Char} (h : c ∈ Nat.toDigits 10 n) :
    isNumeric c :=
  isNumeric_of_isDigit (Nat.isDigit_of_mem_toDigits (by decide) (by decide) h)

theorem Decimal.isNumeric_of_mem_digits {d : Decimal} {c : Char} (h : c ∈ d.digits) :
    isNumeric c := by
  rw [digits, List.mem_reverse] at h
  exact isNumeric_of_mem_toDigits (List.mem_reverse.mp ((List.dropWhile_sublist _).subset h))

theorem isNumeric_of_mem_layOut {ds : List Char} {point : Int} (hds : ∀ c ∈ ds, isNumeric c)
    {c : Char} (h : c ∈ layOut ds point) : isNumeric c := by
  have hzeros {n : Nat} (h : c ∈ List.replicate n '0') : isNumeric c := by
    obtain rfl := List.eq_of_mem_replicate h
    rfl
  have htake {n : Nat} (h : c ∈ ds.take n) : isNumeric c := hds c (List.mem_of_mem_take h)
  have hdrop {n : Nat} (h : c ∈ ds.drop n) : isNumeric c := hds c (List.mem_of_mem_drop h)
  unfold layOut at h
  split at h
  · exact (List.mem_append.mp h).elim (hds c) hzeros
  split at h
  · rcases List.mem_append.mp h with h | h
    · exact htake h
    · rcases List.mem_cons.mp h with rfl | h
      · rfl
      · exact hdrop h
  split at h
  · simp only [List.mem_cons, List.mem_append] at h
    rcases h with rfl | rfl | h | h
    · rfl
    · rfl
    · exact hzeros h
    · exact hds c h
  · simp only [List.mem_append, List.mem_cons] at h
    rcases h with (h | h) | rfl | rfl | h
    · exact htake h
    · split at h
      · cases h
      · rcases List.mem_cons.mp h with rfl | h
        · rfl
        · exact hdrop h
    · rfl
    · split <;> rfl
    · exact isNumeric_of_mem_toDigits h

namespace Binary64

/-- The text of a number has no other characters. -/
theorem isNumeric_of_mem_text {x : Binary64} {c : Char} (h : c ∈ x.text.toList) : isNumeric c := by
  have hnumeral (h : c ∈ numeral x.rank) : isNumeric c :=
    isNumeric_of_mem_layOut (fun _ => Decimal.isNumeric_of_mem_digits) h
  have hword (word : List Char) (hall : word.all isNumeric) (h : c ∈ word) : isNumeric c :=
    List.all_eq_true.mp hall c h
  unfold text at h
  split at h
  · exact hword _ rfl h
  split at h
  · split at h <;> exact hword _ rfl h
  split at h
  · exact hword _ rfl h
  · rw [String.toList_ofList] at h
    split at h
    · rcases List.mem_cons.mp h with rfl | h
      · rfl
      · exact hnumeral h
    · exact hnumeral h

theorem isFinite_iff {x : Binary64} : x.isFinite = true ↔ x.rank < infinityRank :=
  decide_eq_true_iff

/-- A finite number is written with the digits of its shortest decimal. -/
theorem toList_text {x : Binary64} (hfinite : x.isFinite) (h0 : x.rank ≠ 0) :
    x.text.toList = if x.negative then '-' :: numeral x.rank else numeral x.rank := by
  have hrank := isFinite_iff.mp hfinite
  have hnan : x.isNaN = false := decide_eq_false (Nat.lt_asymm hrank)
  have hinfinite : x.isInfinite = false := beq_false_of_ne (Nat.ne_of_lt hrank)
  simp [text, hnan, hinfinite, h0]

theorem text_of_rank_eq_zero {x : Binary64} (h : x.rank = 0) : x.text = "0" := by
  have hzero : infinityRank ≠ 0 := by decide
  simp [text, isNaN, isInfinite, h, Ne.symm hzero]

/-- Numbers are equal if they have the same bits or are both zero, and are no NaNs. -/
theorem agrees_iff {x y : Binary64} : x.agrees y ↔
    x.isNaN = false ∧ y.isNaN = false ∧ x.rank = y.rank ∧
      (x.rank = 0 ∨ x.negative = y.negative) := by
  simp only [agrees, Bool.and_eq_true, Bool.or_eq_true, Bool.not_eq_true', beq_iff_eq, and_assoc]

/-- The two zeros are the only numbers that are equal without being the same. -/
theorem text_eq_of_agrees {x y : Binary64} (h : x.agrees y) : x.text = y.text := by
  obtain ⟨hx, hy, hrank, hzero | hsign⟩ := agrees_iff.mp h
  · rw [text_of_rank_eq_zero hzero, text_of_rank_eq_zero (hrank ▸ hzero)]
  · simp [text, hx, hy, isInfinite, hrank, hsign]

end Binary64
end NestedStyles

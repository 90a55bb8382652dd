import Mathlib.Data.List.TakeWhile
import NestedStyles.Text.Blank

/-!
# Trimming

What is left of a text by trimming neither begins nor ends with a blank character
(`trimmed_trim`). Such a text is not touched by trimming, wherever it stands: only what is around it
is (`Trimmed.trim_append_append`). What is taken off are blank texts at both ends
(`exists_eq_append_trim`), so these do not matter (`trim_surrounded`).
-/

namespace NestedStyles

/-- No blank character is at either end. -/
structure Trimmed (s : List Char) : Prop where
  head : ∀ c ∈ s.head?, isBlank c = false
  last : ∀ c ∈ s.getLast?, isBlank c = false

theorem head?_dropWhile_isBlank (s : List Char) :
    ∀ c ∈ (s.dropWhile isBlank).head?, isBlank c = false := by
  intro c hc
  have hnot := List.head?_dropWhile_not isBlank s
  rwa [Option.mem_def.mp hc] at hnot

theorem isPrefix_trimEnd (s : List Char) : trimEnd s <+: s := by
  rw [← List.reverse_suffix, trimEnd, List.reverse_reverse]
  exact List.dropWhile_suffix isBlank

theorem isInfix_trim (s : List Char) : trim s <:+: s :=
  (isPrefix_trimEnd _).isInfix.trans (List.dropWhile_suffix isBlank).isInfix

theorem trimmed_trim (s : List Char) : Trimmed (trim s) where
  head := by
    intro c hc
    -- the first character of what is left was the first one before the end was trimmed
    obtain ⟨rest, hrest⟩ := isPrefix_trimEnd (s.dropWhile isBlank)
    refine head?_dropWhile_isBlank s c ?_
    rw [← hrest, List.head?_append, show (trimEnd _).head? = some c from hc]
    rfl
  last := by
    intro c hc
    rw [trim, trimEnd, List.getLast?_reverse] at hc
    exact head?_dropWhile_isBlank _ c hc

theorem trimmed_nil : Trimmed [] := trimmed_trim []

theorem dropWhile_isBlank_append {t : List Char} (s : List Char) (hne : t ≠ [])
    (h : ∀ c ∈ t.head?, isBlank c = false) :
    (s ++ t).dropWhile isBlank = s.dropWhile isBlank ++ t := by
  obtain ⟨c, t, rfl⟩ := List.exists_cons_of_ne_nil hne
  have hkept : (c :: t).dropWhile isBlank = c :: t :=
    List.dropWhile_cons_of_neg (by simp [h c rfl])
  rw [List.dropWhile_append, hkept]
  split
  · next hempty => rw [List.isEmpty_iff.mp hempty, List.nil_append]
  · rfl

theorem trimEnd_append {s : List Char} (t : List Char) (hne : s ≠ [])
    (h : ∀ c ∈ s.getLast?, isBlank c = false) : trimEnd (s ++ t) = s ++ trimEnd t := by
  rw [trimEnd, List.reverse_append, dropWhile_isBlank_append _ (by simpa using hne)
    (by simpa using h), List.reverse_append, List.reverse_reverse, trimEnd]

namespace Trimmed

variable {s : List Char} (h : Trimmed s)
include h

theorem trim_append_append (hne : s ≠ []) (before behind : List Char) :
    trim (before ++ s ++ behind) = before.dropWhile isBlank ++ s ++ trimEnd behind := by
  have hhead : ∀ c ∈ (s ++ behind).head?, isBlank c = false := by
    rw [List.head?_append, Option.or_of_isSome (by simpa using hne)]
    exact h.head
  have hlast : ∀ c ∈ (before.dropWhile isBlank ++ s).getLast?, isBlank c = false := by
    rw [List.getLast?_append, Option.or_of_isSome (by simpa using hne)]
    exact h.last
  rw [trim, List.append_assoc, dropWhile_isBlank_append _ (by simp [hne]) hhead,
    ← List.append_assoc, trimEnd_append _ (by simp [hne]) hlast]

/-- Trimming leaves a text alone that has no blank ends. -/
theorem trim_eq : trim s = s := by
  obtain rfl | hne := eq_or_ne s []
  · rfl
  · simpa [trimEnd] using h.trim_append_append hne [] []

/-- A trimmed part of a text is a part of the trimmed text. -/
theorem infix_trim {t : List Char} (hpart : s <:+: t) : s <:+: trim t := by
  obtain rfl | hne := eq_or_ne s []
  · exact List.nil_infix
  · obtain ⟨before, behind, rfl⟩ := hpart
    exact ⟨_, _, (h.trim_append_append hne before behind).symm⟩

end Trimmed

/-- A text that is put around another has no blank ends if its own ends are not blank. -/
theorem trimmed_append_append {s : List Char} (h : Trimmed s) (hne : s ≠ [])
    {before behind : List Char} (hbefore : ∀ c ∈ before.head?, isBlank c = false)
    (hbehind : ∀ c ∈ behind.getLast?, isBlank c = false) : Trimmed (before ++ s ++ behind) where
  head := by
    rw [List.append_assoc, List.head?_append, List.head?_append,
      Option.or_of_isSome (o := s.head?) (by simpa using hne)]
    intro c hc
    exact (Option.or_eq_some_iff.mp hc).elim (hbefore c) fun hs => h.head c hs.2
  last := by
    rw [List.getLast?_append, List.getLast?_append,
      Option.or_of_isSome (o := s.getLast?) (by simpa using hne)]
    intro c hc
    exact (Option.or_eq_some_iff.mp hc).elim (hbehind c) fun hs => h.last c hs.2

/-! ## Blank texts around -/

/-- Only blank characters. -/
def Blank (s : List Char) : Prop := ∀ c ∈ s, isBlank c = true

instance : DecidablePred Blank := fun _ => decidable_of_iff _ List.all_eq_true

theorem Blank.append {s t : List Char} (hs : Blank s) (ht : Blank t) : Blank (s ++ t) :=
  List.forall_mem_append.mpr ⟨hs, ht⟩

theorem Blank.dropWhile_eq_nil {s : List Char} (h : Blank s) : s.dropWhile isBlank = [] :=
  List.dropWhile_eq_nil_iff.mpr h

theorem Blank.trimEnd_eq_nil {s : List Char} (h : Blank s) : trimEnd s = [] := by
  have hreverse : Blank s.reverse := fun c hc => h c (List.mem_reverse.mp hc)
  rw [trimEnd, hreverse.dropWhile_eq_nil, List.reverse_nil]

/-- Trimming takes off blank texts at both ends and leaves the rest as it is. -/
theorem exists_eq_append_trim (s : List Char) :
    ∃ front back, Blank front ∧ Blank back ∧ s = front ++ trim s ++ back := by
  obtain ⟨back, hback⟩ := isPrefix_trimEnd (s.dropWhile isBlank)
  refine ⟨s.takeWhile isBlank, ((s.dropWhile isBlank).reverse.takeWhile isBlank).reverse,
    fun c => List.mem_takeWhile_imp,
    fun c hc => List.mem_takeWhile_imp (List.mem_reverse.mp hc), ?_⟩
  rw [List.append_assoc, trim, trimEnd, ← List.reverse_append, List.takeWhile_append_dropWhile,
    List.reverse_reverse, List.takeWhile_append_dropWhile]

/-- The trimmed text between blank texts is what trimming leaves. -/
theorem Trimmed.trim_between {front s back : List Char} (h : Trimmed s) (hfront : Blank front)
    (hback : Blank back) : trim (front ++ s ++ back) = s := by
  obtain rfl | hne := eq_or_ne s []
  · rw [List.append_nil, trim, (hfront.append hback).dropWhile_eq_nil]
    rfl
  · rw [h.trim_append_append hne, hfront.dropWhile_eq_nil, hback.trimEnd_eq_nil, List.nil_append,
      List.append_nil]

/-- Nothing is left of a blank text, and only of that. -/
theorem trim_eq_nil_iff {s : List Char} : trim s = [] ↔ Blank s := by
  constructor
  · intro h
    obtain ⟨front, back, hfront, hback, hs⟩ := exists_eq_append_trim s
    rw [hs, h, List.append_nil]
    exact hfront.append hback
  · intro h
    have hnil : Blank [] := by decide
    simpa using trimmed_nil.trim_between h hnil

/-- Blank texts around a text do not matter. -/
theorem trim_surrounded {front back : List Char} (hfront : Blank front) (hback : Blank back)
    (s : List Char) : trim (front ++ s ++ back) = trim s := by
  obtain ⟨before, behind, hbefore, hbehind, hs⟩ := exists_eq_append_trim s
  calc trim (front ++ s ++ back)
    _ = trim (front ++ (before ++ trim s ++ behind) ++ back) := by rw [← hs]
    _ = trim (front ++ before ++ trim s ++ (behind ++ back)) := by simp only [List.append_assoc]
    _ = trim s := (trimmed_trim s).trim_between (hfront.append hbefore) (hbehind.append hback)

/-- What trimming leaves of two trimmed texts with a space between them. -/
theorem trim_append_space {s t : List Char} (hs : Trimmed s) (ht : Trimmed t) :
    trim (s ++ ' ' :: t) = if s = [] then t else if t = [] then s else s ++ ' ' :: t := by
  have hnil : Blank [] := by decide
  have hspace : Blank [' '] := by decide
  split
  · next hempty =>
    rw [hempty, List.nil_append]
    simpa using ht.trim_between hspace hnil
  · next hne =>
    split
    · next hempty =>
      rw [hempty]
      exact hs.trim_between hnil hspace
    · next htne =>
      have hhead : ∀ c ∈ ([] : List Char).head?, isBlank c = false := fun _ h => nomatch h
      have hlast : ∀ c ∈ (' ' :: t).getLast?, isBlank c = false := by
        rw [List.getLast?_cons_of_ne_nil htne]
        exact ht.last
      exact (trimmed_append_append hs hne hhead hlast).trim_eq

/-! ## Strings -/

/-- A text without the blank characters at its ends. -/
def bare (s : String) : String := String.ofList (trim s.toList)

@[simp] theorem toList_bare (s : String) : (bare s).toList = trim s.toList := String.toList_ofList

theorem trimmed_bare (s : String) : Trimmed (bare s).toList := by
  rw [toList_bare]
  exact trimmed_trim s.toList

theorem exists_eq_append_bare (s : String) :
    ∃ front back : String,
      Blank front.toList ∧ Blank back.toList ∧ s = front ++ bare s ++ back := by
  obtain ⟨front, back, hfront, hback, hs⟩ := exists_eq_append_trim s.toList
  refine ⟨String.ofList front, String.ofList back, ?_, ?_, ?_⟩
  · rwa [String.toList_ofList]
  · rwa [String.toList_ofList]
  · rw [← String.toList_inj]
    simpa using hs

/-- Blank characters at the ends make no difference. -/
theorem bare_surrounded {front back : String} (hfront : Blank front.toList)
    (hback : Blank back.toList) (s : String) : bare (front ++ s ++ back) = bare s := by
  rw [← String.toList_inj, toList_bare, toList_bare, String.toList_append, String.toList_append,
    trim_surrounded hfront hback]

theorem bare_append_space {s t : String} (hs : Trimmed s.toList) (ht : Trimmed t.toList) :
    bare (s ++ " " ++ t) = if s = "" then t else if t = "" then s else s ++ " " ++ t := by
  have hlist : (s ++ " " ++ t).toList = s.toList ++ ' ' :: t.toList := by simp
  rw [← String.toList_inj, toList_bare, hlist, trim_append_space hs ht]
  simp only [String.toList_eq_nil_iff, apply_ite String.toList, hlist]

/-! ## Characters that are kept -/

theorem count_dropWhile_isBlank {c : Char} (h : isBlank c = false) (s : List Char) :
    (s.dropWhile isBlank).count c = s.count c := by
  have hnone : (s.takeWhile isBlank).count c = 0 := by
    refine List.count_eq_zero.mpr fun hc => ?_
    rw [List.mem_takeWhile_imp hc] at h
    cases h
  rw [← Nat.zero_add (List.count c _), ← hnone, ← List.count_append,
    List.takeWhile_append_dropWhile]

/-- Trimming takes away blank characters only. -/
theorem count_trim {c : Char} (h : isBlank c = false) (s : List Char) :
    (trim s).count c = s.count c := by
  rw [trim, trimEnd, List.count_reverse, count_dropWhile_isBlank h, List.count_reverse,
    count_dropWhile_isBlank h]

end NestedStyles

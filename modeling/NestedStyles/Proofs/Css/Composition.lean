import NestedStyles.Css.Output
import NestedStyles.Proofs.Text.Trim

/-!
# Composing selectors

A fragment puts one text in front of its parent and one behind it, whatever the parent is
(`Selector.Frame`). The frames of two fragments that are no more than white space make up one
frame, unless the inner one is put in front of an outer one without an `&`
(`Selector.Frame.comp`). So two levels of nesting are one level under the composed fragment
(`nesting_merged`).
-/

namespace NestedStyles
namespace Selector

/-! ## Frames -/

/-- The texts around the parent in the selector of a fragment. -/
inductive Frame (fragment : List Char) : List Char → List Char → Prop
  | substitution {before behind : List Char} (hsplit : trim fragment = before ++ '&' :: behind)
      (hfirst : '&' ∉ before) : Frame fragment before behind
  | descendant (hnone : '&' ∉ trim fragment) : Frame fragment [] (' ' :: trim fragment)

theorem exists_frame (fragment : List Char) : ∃ before behind, Frame fragment before behind := by
  by_cases h : '&' ∈ trim fragment
  · obtain ⟨before, behind, hsplit, hfirst⟩ := List.eq_append_cons_of_mem h
    exact ⟨before, behind, .substitution hsplit hfirst⟩
  · exact ⟨_, _, .descendant h⟩

theorem substitute_of_notMem {parent fragment : List Char} (h : '&' ∉ fragment) :
    substitute parent fragment = none := by
  induction fragment with
  | nil => rfl
  | cons c rest ih =>
    obtain ⟨hc, hrest⟩ := List.ne_and_not_mem_of_not_mem_cons h
    rw [substitute, if_neg (Ne.symm hc), ih hrest, Option.map_none]

theorem substitute_append_cons {parent before : List Char} (behind : List Char)
    (h : '&' ∉ before) :
    substitute parent (before ++ '&' :: behind) = some (before ++ parent ++ behind) := by
  induction before with
  | nil => rfl
  | cons c before ih =>
    obtain ⟨hc, hbefore⟩ := List.ne_and_not_mem_of_not_mem_cons h
    rw [List.cons_append, substitute, if_neg (Ne.symm hc), ih hbefore]
    rfl

namespace Frame

variable {fragment before behind : List Char}

/-- A fragment is put around its parent, without the blank characters at the ends of that. -/
theorem join_eq (h : Frame fragment before behind) (parent : List Char) :
    join parent fragment = before ++ trim parent ++ behind := by
  cases h with
  | substitution hsplit hfirst =>
    rw [join, hsplit, substitute_append_cons behind hfirst, Option.getD_some]
  | descendant hnone =>
    rw [join, substitute_of_notMem hnone, Option.getD_none, List.nil_append]

theorem notMem_before (h : Frame fragment before behind) : '&' ∉ before := by
  cases h with
  | substitution _ hfirst => exact hfirst
  | descendant => exact List.not_mem_nil

/-! ### No blank characters at the ends -/

theorem head_before (h : Frame fragment before behind) :
    ∀ c ∈ before.head?, isBlank c = false := by
  cases h with
  | substitution hsplit =>
    intro c hc
    refine (trimmed_trim fragment).head c ?_
    rw [hsplit, List.head?_append, Option.mem_def.mp hc]
    rfl
  | descendant => exact fun _ hc => nomatch hc

theorem last_behind (h : Frame fragment before behind) (hne : trim fragment ≠ []) :
    ∀ c ∈ behind.getLast?, isBlank c = false := by
  intro c hc
  refine (trimmed_trim fragment).last c ?_
  cases h with
  | substitution hsplit =>
    rw [hsplit, List.getLast?_append, List.getLast?_cons, Option.mem_def.mp hc]
    rfl
  | descendant => rwa [List.getLast?_cons_of_ne_nil hne] at hc

/-- Around a parent that is not blank, a fragment that is not blank makes a selector without blank
ends. -/
theorem trimmed_join (h : Frame fragment before behind) (hne : trim fragment ≠ [])
    {parent : List Char} (hparent : trim parent ≠ []) : Trimmed (join parent fragment) := by
  rw [h.join_eq]
  exact trimmed_append_append (trimmed_trim parent) hparent h.head_before (h.last_behind hne)

/-- The frame of a fragment that is itself composed: the inner parent brings its own frame, unless
it has no `&` for the outer one and does not stand at the front. -/
theorem comp {inner front back : List Char} (houter : Frame fragment before behind)
    (hinner : Frame inner front back) (hfragment : trim fragment ≠ []) (hne : trim inner ≠ [])
    (h : '&' ∈ trim fragment ∨ '&' ∉ trim inner ∨
      ∃ rest, trim inner = '&' :: rest ∧ '&' ∉ rest) :
    Frame (join fragment inner) (front ++ before) (behind ++ back) := by
  have htrim := (hinner.trimmed_join hne hfragment).trim_eq
  rw [hinner.join_eq] at htrim
  cases houter with
  | substitution hsplit hfirst =>
    refine .substitution ?_ fun hmem => ?_
    · rw [hinner.join_eq, htrim, hsplit]
      simp
    · exact (List.mem_append.mp hmem).elim hinner.notMem_before hfirst
  | descendant hnone =>
    have hfront : front = [] ∧ '&' ∉ back := by
      cases hinner with
      | substitution hsplit hfirst =>
        rw [hsplit] at h
        obtain h | h | ⟨rest, hrest, hlone⟩ := h
        · exact absurd h hnone
        · exact absurd (by simp) h
        · cases front with
          | nil =>
            obtain ⟨-, rfl⟩ := List.cons.inj hrest
            exact ⟨rfl, hlone⟩
          | cons c front =>
            obtain ⟨rfl, -⟩ := List.cons.inj hrest
            exact absurd List.mem_cons_self hfirst
      | descendant hinnerNone => exact ⟨rfl, by simpa using hinnerNone⟩
    obtain ⟨rfl, hback⟩ := hfront
    have hjoin : trim (join fragment inner) = trim fragment ++ back := by
      rw [hinner.join_eq, htrim, List.nil_append]
    have hjoinNone : '&' ∉ trim (join fragment inner) := by
      rw [hjoin]
      exact fun hmem => (List.mem_append.mp hmem).elim hnone hback
    have hframe := Frame.descendant hjoinNone
    rwa [hjoin] at hframe

end Frame

/-! ## Composing twice -/

/-- To compose with one fragment and then with another is to compose with both at once, if the first
has an `&` for the outer parent or the second leaves it in front. -/
theorem join_join {a b c : List Char} (ha : trim a ≠ []) (hb : trim b ≠ []) (hc : trim c ≠ [])
    (h : '&' ∈ trim b ∨ '&' ∉ trim c ∨ ∃ rest, trim c = '&' :: rest ∧ '&' ∉ rest) :
    join (join a b) c = join a (join b c) := by
  obtain ⟨before, behind, hframe⟩ := exists_frame b
  obtain ⟨front, back, hinner⟩ := exists_frame c
  calc join (join a b) c
    _ = front ++ join a b ++ back := by
      rw [hinner.join_eq, (hframe.trimmed_join hb ha).trim_eq]
    _ = front ++ before ++ trim a ++ (behind ++ back) := by simp [hframe.join_eq]
    _ = join a (join b c) := ((hframe.comp hinner hb hc h).join_eq a).symm

theorem compose_eq_join (fragment parent : String) :
    (compose fragment (some parent)).toList = join parent.toList fragment.toList :=
  String.toList_ofList

end Selector

namespace Style

/-- A style with nothing but one nested style is written as that one. -/
theorem write_nesting_empty (fragment : String) (inner : Style) (parent : Option String)
    (out : Output) :
    (empty.nesting fragment inner).write parent out =
      inner.write (some (Selector.compose fragment parent)) out := rfl

end Style

open Selector in
/-- Under a parent that is more than white space, two levels of nesting are written like one level
with the composed fragment, if the outer fragment has an `&`, or the inner one has none or is headed
by its only one. -/
theorem nesting_merged {a b c : String} (ha : trim a.toList ≠ []) (hb : trim b.toList ≠ [])
    (hc : trim c.toList ≠ [])
    (h : '&' ∈ trim b.toList ∨ '&' ∉ trim c.toList ∨
      ∃ rest, trim c.toList = '&' :: rest ∧ '&' ∉ rest) :
    compose c (some (compose b (some a))) = compose (compose c (some b)) (some a) ∧
    ∀ inner : Style,
      (Style.empty.nesting b (Style.empty.nesting c inner)).css (some a) =
        (Style.empty.nesting (compose c (some b)) inner).css (some a) ∧
      ∀ out : Output,
        (Style.empty.nesting b (Style.empty.nesting c inner)).write (some a) out =
          (Style.empty.nesting (compose c (some b)) inner).write (some a) out := by
  have hcompose : compose c (some (compose b (some a))) =
      compose (compose c (some b)) (some a) := by
    rw [← String.toList_inj]
    simp only [compose_eq_join]
    exact join_join ha hb hc h
  have hwrite (inner : Style) (out : Output) :
      (Style.empty.nesting b (Style.empty.nesting c inner)).write (some a) out =
        (Style.empty.nesting (compose c (some b)) inner).write (some a) out := by
    simp only [Style.write_nesting_empty, hcompose]
  exact ⟨hcompose, fun inner => ⟨congrArg Output.css (hwrite inner _), hwrite inner⟩⟩

open Selector in
/-- With an `&` in every one of the selectors. -/
theorem nesting_merged_leftover :
    let declared := Style.declare "x" (.text "1") .empty
    (trim " ul& ".toList ≠ [] ∧ trim " nav & ".toList ≠ [] ∧ trim "& + &".toList ≠ [] ∧
      '&' ∈ trim " nav & ".toList) ∧
    compose "& + &" (some " nav & ") = "nav & + &" ∧
    (Style.empty.nesting " nav & " (Style.empty.nesting "& + &" declared)).css (some " ul& ") =
      (Style.empty.nesting "nav & + &" declared).css (some " ul& ") ∧
    (Style.empty.nesting "nav & + &" declared).css (some " ul& ") = "nav ul& + &\x7bx:1;\x7d" := by
  have hyp : trim " ul& ".toList ≠ [] ∧ trim " nav & ".toList ≠ [] ∧
      trim "& + &".toList ≠ [] ∧ '&' ∈ trim " nav & ".toList := by decide
  obtain ⟨ha, hb, hc, hmem⟩ := hyp
  obtain ⟨-, hmerged⟩ := nesting_merged ha hb hc (.inl hmem)
  obtain ⟨hcss, -⟩ := hmerged (.declare "x" (.text "1") .empty)
  exact ⟨⟨ha, hb, hc, hmem⟩, by decide, hcss, by decide⟩

-- the inner `&` takes up the whole parent, or only the part of it that is nested there
example : Selector.compose "c &" (some (Selector.compose "b" (some "a"))) = "c a b" ∧
    Selector.compose (Selector.compose "c &" (some "b")) (some "a") = "a c b" := by decide

end NestedStyles

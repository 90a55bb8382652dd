import NestedStyles.Proofs.Css.Composition
import NestedStyles.Proofs.Css.Segments

/-!
# White space around selectors

A parent is written as it is in front of a style's own declarations, and trimmed everywhere below.
So white space around it is seen in that one place, and white space around a fragment is seen
nowhere (`padding_contained`).
-/

namespace NestedStyles
namespace Selector

/-- Only what trimming leaves of a fragment and its parent has a part in their selector. -/
theorem compose_congr {fragment fragment' : String} {parent parent' : Option String}
    (hfragment : bare fragment = bare fragment')
    (hparent : bare (parent.getD "") = bare (parent'.getD "")) :
    compose fragment parent = compose fragment' parent' := by
  have hfragments := congrArg String.toList hfragment
  have hparents := congrArg String.toList hparent
  simp only [toList_bare] at hfragments hparents
  rw [compose, compose, join, join, hfragments, hparents]

end Selector

namespace Style

/-! ## Around a parent -/

/-- Nested styles see of a parent what is left when it is trimmed. -/
theorem nestedText_congr {parent parent' : Option String}
    (h : bare (parent.getD "") = bare (parent'.getD "")) (s : Style) :
    s.nestedText parent = s.nestedText parent' := by
  induction s with
  | empty => rfl
  | declare name value rest ih => exact ih
  | nest fragment child rest _ ih =>
    rw [nestedText_nest, nestedText_nest, Selector.compose_congr rfl h, ih]

/-! ## Around fragments -/

/-- The same style with blank characters put around fragments, at any depth. Nothing is said about
fragments that become the same, as writing does not look them up. -/
inductive Padded : Style → Style → Prop
  | empty : Padded empty empty
  | declare : Padded rest rest' → Padded (declare name value rest) (declare name value rest')
  | nest (front back : String) : Blank front.toList → Blank back.toList → Padded child child' →
    Padded rest rest' →
    Padded (nest fragment child rest) (nest (front ++ fragment ++ back) child' rest')

namespace Padded

theorem declarations_eq {s s' : Style} (h : Padded s s') : s.declarations = s'.declarations := by
  induction h with
  | empty => rfl
  | declare _ ih => exact congrArg (List.cons _) ih
  | nest _ _ _ _ _ _ _ ih => exact ih

/-- Blank characters around fragments change nothing that is written. -/
theorem writeNested_eq {s s' : Style} (h : Padded s s') (parent : Option String) (out : Output) :
    s.writeNested parent out = s'.writeNested parent out := by
  induction h generalizing parent out with
  | empty => rfl
  | declare _ ih => exact ih parent out
  | nest front back hfront hback hchild _ ihChild ihRest =>
    rw [writeNested, writeNested,
      Selector.compose_congr (bare_surrounded hfront hback _) rfl, hchild.declarations_eq,
      ihChild, ihRest]

theorem writtenAlike {s s' : Style} (h : Padded s s') : WrittenAlike s s' := by
  intro parent out
  rw [write, write, h.declarations_eq, h.writeNested_eq]

end Padded
end Style

/-- The same sheet with blank characters put around fragments, at any depth. -/
def Sheet.Padded (t u : Sheet) : Prop :=
  List.Forall₂ (Keyed.SameKey Style.Padded) t.groups u.groups

theorem Sheet.Padded.write_eq {t u : Sheet} (h : t.Padded u) (out : Output) :
    t.write out = u.write out := write_eq_of_forall₂ (fun hstyle => hstyle.writtenAlike) h out

/-- Parents that are trimmed to the same text make a difference to the rule of a style's own
declarations only, where they stand as they are, and not to the rules of the styles nested in it. No
parent is like the empty one. Blank characters around fragments make no difference. -/
theorem padding_contained :
    (∀ (s : Style) (parent parent' : Option String),
      bare (parent.getD "") = bare (parent'.getD "") →
      s.css parent = s.ownText parent ++ s.nestedText parent ∧
      s.css parent' = s.ownText parent' ++ s.nestedText parent ∧
      (s.declarations = [] → s.css parent = s.css parent')) ∧
    (∀ s : Style, s.css none = s.css (some "")) ∧
    (∀ s s' : Style, s.Padded s' → ∀ parent : Option String, s.css parent = s'.css parent) ∧
    ∀ t u : Sheet, t.Padded u → t.css = u.css := by
  refine ⟨fun s parent parent' h => ?_, fun s => ?_, fun s s' h => h.writtenAlike.css_eq,
    fun t u h => congrArg Output.css (h.write_eq _)⟩
  · have hcss := s.css_eq_append parent
    have hcss' := s.css_eq_append parent'
    rw [← s.nestedText_congr h] at hcss'
    refine ⟨hcss, hcss', fun hnone => ?_⟩
    rw [hcss, hcss', s.ownText_of_declarations_eq_nil hnone, s.ownText_of_declarations_eq_nil hnone]
  · rw [s.css_eq_append, s.css_eq_append]
    rfl

/-- A style with another one two levels down. -/
def hoverStyle (outer inner : String) : Style :=
  .declare "x" (.text "1")
    (.nest outer (.nest inner (.declare "y" (.text "2") .empty) .empty) .empty)

/-- A style with white space around both of its fragments. -/
def paddedHoverStyle : Style := hoverStyle (" " ++ "&:hover" ++ "\t") ("\uFEFF" ++ "b" ++ "")

/-- A parent with blank ends, with which only the own rule of a style begins, and fragments with
blank ends. -/
theorem padding_contained_hover :
    bare " a\uFEFF" = bare "a" ∧
    (hoverStyle "&:hover" "b").css (some " a\uFEFF") =
      " a\uFEFF\x7bx:1;\x7d" ++ "a:hover b\x7by:2;\x7d" ∧
    (hoverStyle "&:hover" "b").css (some "a") = "a\x7bx:1;\x7d" ++ "a:hover b\x7by:2;\x7d" ∧
    (hoverStyle "&:hover" "b").Padded paddedHoverStyle ∧
    (hoverStyle "&:hover" "b").css (some "a") = paddedHoverStyle.css (some "a") ∧
    Sheet.css ⟨[(" a ", hoverStyle "&:hover" "b")]⟩ = Sheet.css ⟨[(" a ", paddedHoverStyle)]⟩ := by
  have hparent : bare " a\uFEFF" = bare "a" := by decide
  have hpadded : (hoverStyle "&:hover" "b").Padded paddedHoverStyle := by
    have hinner : Style.Padded (.nest "b" (.declare "y" (.text "2") .empty) .empty) _ :=
      .nest "\uFEFF" "" (by decide) (by decide) (.declare .empty) .empty
    exact .declare (.nest " " "\t" (by decide) (by decide) hinner .empty)
  have hnested : (hoverStyle "&:hover" "b").nestedText (some " a\uFEFF") =
      "a:hover b\x7by:2;\x7d" := by decide
  obtain ⟨hcss, -, hstyle, hsheet⟩ := padding_contained
  obtain ⟨hown, hother, -⟩ := hcss (hoverStyle "&:hover" "b") (some " a\uFEFF") (some "a") hparent
  rw [hnested] at hown hother
  exact ⟨hparent, hown, hother, hpadded, hstyle _ _ hpadded _,
    hsheet _ _ (.cons ⟨rfl, hpadded⟩ .nil)⟩

end NestedStyles

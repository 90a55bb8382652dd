import NestedStyles.Proofs.Css.Segments

/-!
# Interleaving

A style may declare and nest in any order: what it is written as depends on the order of its
declarations and on the order of its nested styles, and not on how the two are mixed
(`interleaving_unseen`).
-/

namespace NestedStyles
namespace Style

/-- The same declarations in the same order, and the same fragments in the same order, over styles
of which the same is true; but declarations and fragments may be mixed in another way. -/
inductive Interleaved : Style → Style → Prop
  | intro {s t : Style} (declarations : s.declarations = t.declarations)
      (fragments : Keyed.keys s.children = Keyed.keys t.children)
      (inner : ∀ pair ∈ s.children.zip t.children, Interleaved pair.1.2 pair.2.2) :
      Interleaved s t

/-- Only the order between declarations and nested styles is free, at every level. -/
theorem interleaved_iff {s t : Style} :
    Interleaved s t ↔ s.declarations = t.declarations ∧
      List.Forall₂ (Keyed.SameKey Interleaved) s.children t.children := by
  rw [Keyed.forall₂_sameKey_iff_zip]
  constructor
  · rintro ⟨declarations, fragments, inner⟩
    exact ⟨declarations, fragments, inner⟩
  · rintro ⟨declarations, fragments, inner⟩
    exact .intro declarations fragments inner

/-! ## The same rules -/

/-- The same rules wherever the two styles stand. -/
def SameRules (s t : Style) : Prop :=
  ∀ selector : List String → String, rulesOf selector s.nodes = rulesOf selector t.nodes

theorem SameRules.writtenAlike {s t : Style} (h : SameRules s t) : WrittenAlike s t := by
  intro parent out
  rw [write_eq, write_eq, rules, rules, h]

/-- The rules of a style are its own, if it has one, and those of its nested styles one after the
other. -/
theorem rulesOf_nodes_eq_children (selector : List String → String) (s : Style) :
    rulesOf selector s.nodes = rulesOf selector [⟨[], s⟩] ++
      s.children.flatMap fun child =>
        rulesOf (fun path => selector (child.1 :: path)) child.2.nodes := by
  rw [rulesOf_nodes, inner_eq_flatMap, rulesOf_flatMap]
  simp only [rulesOf_map_under]

theorem rulesOf_children_eq {children children' : List (String × Style)}
    (h : List.Forall₂ (Keyed.SameKey SameRules) children children')
    (selector : List String → String) :
    (children.flatMap fun child => rulesOf (fun path => selector (child.1 :: path)) child.2.nodes) =
      children'.flatMap fun child =>
        rulesOf (fun path => selector (child.1 :: path)) child.2.nodes := by
  induction h with
  | nil => rfl
  | cons hchild _ ih =>
    obtain ⟨hfragment, hrules⟩ := hchild
    rw [List.flatMap_cons, List.flatMap_cons, ih, hfragment, hrules]

/-- The rules of a style come from its declarations and its children, each in order. -/
theorem sameRules_of_parts {s t : Style} (hdeclarations : s.declarations = t.declarations)
    (hchildren : List.Forall₂ (Keyed.SameKey SameRules) s.children t.children) :
    SameRules s t := by
  intro selector
  have hown : rulesOf selector [⟨[], s⟩] = rulesOf selector [⟨[], t⟩] := by
    simp only [rulesOf, List.map_cons, List.map_nil, hdeclarations]
  rw [rulesOf_nodes_eq_children, rulesOf_nodes_eq_children, hown, rulesOf_children_eq hchildren]

theorem Interleaved.sameRules {s t : Style} (h : Interleaved s t) : SameRules s t := by
  induction h with
  | intro declarations fragments _ ih =>
    exact sameRules_of_parts declarations (Keyed.forall₂_sameKey_iff_zip.mpr ⟨fragments, ih⟩)

end Style

/-- The same selectors in the same order, over styles that differ in how their declarations and
nested styles are mixed, at any depth. -/
def Sheet.Interleaved (t u : Sheet) : Prop :=
  List.Forall₂ (Keyed.SameKey Style.Interleaved) t.groups u.groups

theorem Sheet.Interleaved.write_eq {t u : Sheet} (h : t.Interleaved u) (out : Output) :
    t.write out = u.write out :=
  write_eq_of_forall₂ (fun hstyle => hstyle.sameRules.writtenAlike) h out

/-- How declarations and nested styles are mixed, at any depth, is seen neither in the text nor in
the records, of a style under any parent and of a sheet, behind any output. -/
theorem interleaving_unseen :
    (∀ s t : Style, s.Interleaved t → ∀ parent : Option String,
      s.css parent = t.css parent ∧ ∀ out : Output, s.write parent out = t.write parent out) ∧
    ∀ t u : Sheet, t.Interleaved u → t.css = u.css ∧ ∀ out : Output, t.write out = u.write out := by
  constructor
  · intro s t h parent
    have halike := h.sameRules.writtenAlike
    exact ⟨halike.css_eq parent, halike parent⟩
  · intro t u h
    exact ⟨congrArg Output.css (h.write_eq _), h.write_eq⟩

/-- Nested styles in front of declarations, and declarations behind them, at two levels. -/
def scattered : Style :=
  .nest "b"
    (.declare "x" (.text "1") (.nest "c" (.declare "y" (.text "2") .empty)
      (.declare "z" (.text "3") .empty)))
    (.declare "color" (.text "red") .empty)

/-- The same with all declarations in front. -/
def gathered : Style :=
  .declare "color" (.text "red")
    (.nest "b"
      (.declare "x" (.text "1") (.declare "z" (.text "3")
        (.nest "c" (.declare "y" (.text "2") .empty) .empty)))
      .empty)

/-- Declarations among nested styles, and the same declarations in front of them. -/
theorem interleaving_unseen_scattered :
    scattered.Interleaved gathered ∧ scattered.css none = gathered.css none ∧
    Sheet.css ⟨[("a", scattered)]⟩ = "a\x7bcolor:red;\x7da b\x7bx:1;z:3;\x7da b c\x7by:2;\x7d" ∧
    Sheet.write ⟨[("a", scattered)]⟩ ⟨"/**/", []⟩ =
      Sheet.write ⟨[("a", gathered)]⟩ ⟨"/**/", []⟩ := by
  have hinner : Style.Interleaved (.declare "y" (.text "2") .empty)
      (.declare "y" (.text "2") .empty) := Style.interleaved_iff.mpr ⟨rfl, .nil⟩
  have hnested : Style.Interleaved
      (.declare "x" (.text "1") (.nest "c" (.declare "y" (.text "2") .empty)
        (.declare "z" (.text "3") .empty)))
      (.declare "x" (.text "1") (.declare "z" (.text "3")
        (.nest "c" (.declare "y" (.text "2") .empty) .empty))) :=
    Style.interleaved_iff.mpr ⟨rfl, .cons ⟨rfl, hinner⟩ .nil⟩
  have hstyle : scattered.Interleaved gathered :=
    Style.interleaved_iff.mpr ⟨rfl, .cons ⟨rfl, hnested⟩ .nil⟩
  obtain ⟨hstyles, hsheets⟩ := interleaving_unseen
  obtain ⟨hcss, hwrite⟩ :=
    hsheets ⟨[("a", scattered)]⟩ ⟨[("a", gathered)]⟩ (.cons ⟨rfl, hstyle⟩ .nil)
  exact ⟨hstyle, (hstyles _ _ hstyle none).1, hcss.trans (by decide), hwrite _⟩

end NestedStyles

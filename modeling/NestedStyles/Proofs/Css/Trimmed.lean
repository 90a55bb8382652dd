import NestedStyles.Proofs.Css.Descendants
import NestedStyles.Proofs.Style.Places

/-!
# Selectors without white space at their ends

Where neither a fragment nor its parent is blank, their selector begins and ends with characters
that are not blank, whatever is around the two (`Selector.firm_compose`). This is kept from level to
level (`Selector.firm_descend`), so where no key is blank every selector of a nested style stands in
the selectors below it as it is written for its own declarations (`selectors_stay_trimmed`).
-/

namespace NestedStyles

/-- A text that begins and ends with a character that is not blank. -/
structure Firm (s : List Char) : Prop where
  trimmed : Trimmed s
  ne_nil : s ≠ []

theorem Firm.not_blank {s : List Char} (h : Firm s) : ¬Blank s := by
  intro hblank
  apply h.ne_nil
  rw [← h.trimmed.trim_eq]
  exact trim_eq_nil_iff.mpr hblank

namespace Selector

/-! ## One level -/

theorem Frame.firm_join {fragment before behind parent : List Char}
    (h : Frame fragment before behind) (hfragment : ¬Blank fragment) (hparent : ¬Blank parent) :
    Firm (join parent fragment) := by
  rw [← trim_eq_nil_iff] at hfragment hparent
  constructor
  · exact h.trimmed_join hfragment hparent
  · rw [h.join_eq]
    exact List.append_ne_nil_of_left_ne_nil (List.append_ne_nil_of_right_ne_nil _ hparent) _

/-- Composing what is not blank gives a selector with firm ends. -/
theorem firm_compose {fragment parent : String} (hfragment : ¬Blank fragment.toList)
    (hparent : ¬Blank parent.toList) : Firm (compose fragment (some parent)).toList := by
  obtain ⟨before, behind, hframe⟩ := exists_frame fragment.toList
  rw [compose_eq_join]
  exact hframe.firm_join hfragment hparent

/-- A trimmed parent stands in the selector as it is, between the texts of the fragment. -/
theorem exists_frame_compose {parent : String} (h : Trimmed parent.toList) (fragment : String) :
    ∃ before behind, Frame fragment.toList before behind ∧
      (compose fragment (some parent)).toList = before ++ parent.toList ++ behind := by
  obtain ⟨before, behind, hframe⟩ := exists_frame fragment.toList
  refine ⟨before, behind, hframe, ?_⟩
  rw [compose_eq_join, hframe.join_eq, h.trim_eq]

/-! ## All levels -/

/-- Below the first key. This one is written as it is, so nothing is said about its ends. -/
theorem firm_descend {parent : String} {path : List String} (hparent : ¬Blank parent.toList)
    (h : ∀ key ∈ path, ¬Blank key.toList) (hne : path ≠ []) :
    Firm (descend parent path).toList := by
  induction path using List.reverseRecOn with
  | nil => exact absurd rfl hne
  | append_singleton path key ih =>
    obtain ⟨hpath, hkey⟩ := List.forall_mem_append.mp h
    rw [descend_concat]
    apply firm_compose (hkey key List.mem_cons_self)
    rcases path with _ | ⟨fragment, path⟩
    · exact hparent
    · exact (ih hpath (List.cons_ne_nil _ _)).not_blank

/-- Nested selectors have firm ends, if no key on the way is blank. -/
theorem firm_ofPath {path : List String} (h : ∀ key ∈ path, ¬Blank key.toList)
    (hnested : 2 ≤ path.length) : Firm (ofPath path).toList := by
  rcases path with _ | ⟨top, _ | ⟨fragment, path⟩⟩
  · cases hnested
  · exact absurd hnested (Nat.lt_irrefl 1)
  · obtain ⟨htop, hpath⟩ := List.forall_mem_cons.mp h
    exact firm_descend htop hpath (List.cons_ne_nil _ _)

theorem ofPath_append_singleton {path : List String} (hne : path ≠ []) (fragment : String) :
    ofPath (path ++ [fragment]) = compose fragment (some (ofPath path)) := by
  obtain ⟨top, path, rfl⟩ := List.exists_cons_of_ne_nil hne
  exact descend_concat top path fragment

end Selector

/-- No selector of a group and no fragment at any depth is blank. -/
structure Sheet.NoBlankKeys (t : Sheet) : Prop where
  groups : ∀ group ∈ t.groups, ¬Blank group.1.toList
  children : ∀ node ∈ t.nodes, ∀ child ∈ node.content.children, ¬Blank child.1.toList

theorem Sheet.NoBlankKeys.not_blank {t : Sheet} (h : t.NoBlankKeys) {node : Located Style}
    (hnode : node ∈ t.nodes) : ∀ key ∈ node.path, ¬Blank key.toList := by
  obtain ⟨group, hgroup, hinside⟩ := List.mem_flatMap.mp hnode
  obtain ⟨inside, hmem, rfl⟩ := List.mem_map.mp hinside
  have hchildren : ∀ node ∈ group.2.nodes, ∀ child ∈ node.content.children,
      ¬Blank child.1.toList := by
    intro node hnode
    exact h.children (node.under group.1)
      (List.mem_flatMap.mpr ⟨group, hgroup, List.mem_map_of_mem hnode⟩)
  rw [Located.path_under]
  exact List.forall_mem_cons.mpr
    ⟨h.groups group hgroup, Style.forall_mem_path hchildren inside hmem⟩

open Selector in
/-- Where no key is blank, the selector of every nested style is neither blank nor does it begin or
end with a blank character. So trimming leaves it as it is: it is written in front of the style's
declarations, and stands in the selectors of the styles below, as the same text. -/
theorem selectors_stay_trimmed (t : Sheet) (h : t.NoBlankKeys) :
    t.css = String.join (t.rules.map Rule.text) ∧
    ∀ node ∈ t.nodes, 2 ≤ node.path.length →
      ¬Blank (ofPath node.path).toList ∧ Trimmed (ofPath node.path).toList ∧
      bare (ofPath node.path) = ofPath node.path ∧
      (node.content.declarations ≠ [] →
        ⟨ofPath node.path, node.content.declarations⟩ ∈ t.rules) ∧
      ∀ inner ∈ t.nodes, ∀ fragment : String, inner.path = node.path ++ [fragment] →
        ∃ before behind, Frame fragment.toList before behind ∧
          (ofPath inner.path).toList = before ++ (ofPath node.path).toList ++ behind := by
  refine ⟨t.css_eq, fun node hnode hnested => ?_⟩
  have hfirm := firm_ofPath (h.not_blank hnode) hnested
  refine ⟨hfirm.not_blank, hfirm.trimmed, ?_, t.mem_rules hnode, ?_⟩
  · rw [← String.toList_inj, toList_bare, hfirm.trimmed.trim_eq]
  · intro inner _ fragment hinner
    have hne : node.path ≠ [] := by
      rintro hnil
      rw [hnil] at hnested
      cases hnested
    rw [hinner, ofPath_append_singleton hne]
    exact exists_frame_compose hfirm.trimmed fragment

/-- A style inside of a fragment with an `&` at both ends of it. -/
def ampersandStyle : Style :=
  .nest "a, & + & " (.declare "y" (.text "2") .empty) .empty

/-- White space around every key, and an `&` at the front, at the end and alone. -/
def spaciousSheet : Sheet :=
  ⟨[("\uFEFF ul ", .nest " & > li\t" (.nest "\n.dark & " (.nest " & "
    (.declare "x" (.text "1") ampersandStyle) .empty) .empty) .empty)]⟩

/-- Keys with blank ends, with `&` at the front, at the end, alone and inside. -/
theorem selectors_stay_trimmed_spacious :
    spaciousSheet.NoBlankKeys ∧
    ⟨["\uFEFF ul ", " & > li\t", "\n.dark & ", " & "], .declare "x" (.text "1") ampersandStyle⟩ ∈
      spaciousSheet.nodes ∧
    bare ".dark ul > li" = ".dark ul > li" ∧
    ⟨".dark ul > li", [("x", .text "1")]⟩ ∈ spaciousSheet.rules ∧
    ∃ before behind, Selector.Frame "a, & + & ".toList before behind ∧
      "a, .dark ul > li + &".toList = before ++ ".dark ul > li".toList ++ behind := by
  have hkeys : spaciousSheet.NoBlankKeys := ⟨by decide, by decide⟩
  have hnode : ⟨["\uFEFF ul ", " & > li\t", "\n.dark & ", " & "],
      .declare "x" (.text "1") ampersandStyle⟩ ∈ spaciousSheet.nodes := by decide
  have hselector : Selector.ofPath ["\uFEFF ul ", " & > li\t", "\n.dark & ", " & "] =
      ".dark ul > li" := by decide
  have hbelow : Selector.ofPath ["\uFEFF ul ", " & > li\t", "\n.dark & ", " & ", "a, & + & "] =
      "a, .dark ul > li + &" := by decide
  obtain ⟨-, hnodes⟩ := selectors_stay_trimmed spaciousSheet hkeys
  obtain ⟨-, -, hbare, hrule, hinner⟩ := hnodes _ hnode (by decide)
  rw [hselector] at hbare hrule hinner
  have hframe := hinner ⟨["\uFEFF ul ", " & > li\t", "\n.dark & ", " & ", "a, & + & "],
    .declare "y" (.text "2") .empty⟩ (by decide) "a, & + & " rfl
  rw [hbelow] at hframe
  exact ⟨hkeys, hnode, hbare, hrule (by decide), hframe⟩

end NestedStyles

import Mathlib.Algebra.GroupWithZero.Nat
import NestedStyles.Proofs.Css.Composition
import NestedStyles.Proofs.Css.Flattening

/-!
# Ampersands in selectors

Composing uses up one `&` of the fragment, if there is one, and no other: those of the parent stay
where they are, and are not replaced further down (`ampersands_conserved`).
-/

namespace NestedStyles

/-- How many `&` there are in a text. -/
def ampersands (s : String) : Nat := s.toList.count '&'

namespace Selector

/-- The parent stands in place of one `&`, and all others stay. -/
theorem Frame.count_ampersands {fragment before behind : List Char}
    (h : Frame fragment before behind) :
    before.count '&' + behind.count '&' = fragment.count '&' - 1 := by
  have hcount : (trim fragment).count '&' = fragment.count '&' := count_trim (by decide) fragment
  cases h with
  | substitution hsplit =>
    rw [← hcount, hsplit, List.count_append, List.count_cons_self]
    omega
  | descendant hnone =>
    rw [← hcount, List.count_eq_zero.mpr hnone, List.count_cons_of_ne (by decide),
      List.count_eq_zero.mpr hnone, List.count_nil]

/-- A fragment brings in all its `&` but the one that the parent replaces. -/
theorem ampersands_compose (fragment parent : String) :
    ampersands (compose fragment (some parent)) =
      ampersands parent + (ampersands fragment - 1) := by
  obtain ⟨before, behind, hframe⟩ := exists_frame fragment.toList
  have hcount := hframe.count_ampersands
  have hparent : (trim parent.toList).count '&' = parent.toList.count '&' :=
    count_trim (by decide) _
  rw [ampersands, compose_eq_join, hframe.join_eq, List.count_append, List.count_append, hparent,
    ampersands, ampersands]
  omega

/-- Every level of a path brings in all its `&` but one. -/
theorem ampersands_descend (parent : String) (path : List String) :
    ampersands (descend parent path) =
      ampersands parent + (path.map fun key => ampersands key - 1).sum := by
  induction path generalizing parent with
  | nil => rfl
  | cons fragment path ih =>
    rw [descend_cons, ih, ampersands_compose, List.map_cons, List.sum_cons, Nat.add_assoc]

/-! ## Parents as parts of selectors -/

theorem isInfix_trim_compose (fragment parent : String) :
    trim parent.toList <:+: (compose fragment (some parent)).toList := by
  obtain ⟨before, behind, hframe⟩ := exists_frame fragment.toList
  rw [compose_eq_join, hframe.join_eq]
  exact ⟨before, behind, rfl⟩

/-- A parent is a part of every selector below it, untouched but for white space at its ends. -/
theorem isInfix_trim_descend (parent : String) (path : List String) :
    trim parent.toList <:+: (descend parent path).toList := by
  induction path generalizing parent with
  | nil => exact isInfix_trim parent.toList
  | cons fragment path ih =>
    have hstep := (trimmed_trim parent.toList).infix_trim (isInfix_trim_compose fragment parent)
    exact hstep.trans (ih _)

/-- The selector of an outer level, without the blank characters around it, stands in the selectors
of all levels inside. -/
theorem isInfix_trim_ofPath {top : String} {upper path : List String} (h : upper <+: path) :
    trim (ofPath (top :: upper)).toList <:+: (ofPath (top :: path)).toList := by
  obtain ⟨lower, rfl⟩ := h
  have hsplit : ofPath (top :: (upper ++ lower)) = descend (ofPath (top :: upper)) lower :=
    descend_append top upper lower
  rw [hsplit]
  exact isInfix_trim_descend _ lower

end Selector

theorem mem_ampersand_iff (s : String) : '&' ∈ s.toList ↔ 0 < ampersands s :=
  List.count_pos_iff.symm

theorem Sheet.exists_path_eq_cons {t : Sheet} {node : Located Style} (h : node ∈ t.nodes) :
    ∃ top path, node.path = top :: path := by
  obtain ⟨group, -, hnode⟩ := List.mem_flatMap.mp h
  obtain ⟨inner, -, rfl⟩ := List.mem_map.mp hnode
  exact ⟨_, _, rfl⟩

/-- Every rule of a sheet is written under the selector of its path, and the ampersands of this
selector are those of its first key and, of each further key, all but one. So it has one only if the
first key has one or a further key has two; and the selector of a style further out is a part of it
with the ampersands that were left there. -/
theorem ampersands_conserved (t : Sheet) :
    t.css = String.join ((rulesOf Selector.ofPath t.nodes).map Rule.text) ∧
    ∀ node ∈ t.nodes, ∃ top path, node.path = top :: path ∧
      ampersands (Selector.ofPath node.path) =
        ampersands top + (path.map fun key => ampersands key - 1).sum ∧
      ('&' ∈ (Selector.ofPath node.path).toList ↔
        '&' ∈ top.toList ∨ ∃ key ∈ path, 2 ≤ ampersands key) ∧
      ∀ upper : List String, upper <+: path →
        trim (Selector.ofPath (top :: upper)).toList <:+:
          (Selector.ofPath node.path).toList := by
  refine ⟨t.css_eq, fun node hnode => ?_⟩
  obtain ⟨top, path, hpath⟩ := Sheet.exists_path_eq_cons hnode
  have hcount : ampersands (Selector.ofPath (top :: path)) =
      ampersands top + (path.map fun key => ampersands key - 1).sum :=
    Selector.ampersands_descend top path
  have hspare : 0 < (path.map fun key => ampersands key - 1).sum ↔
      ∃ key ∈ path, 2 ≤ ampersands key := by
    simp only [List.sum_pos_iff_exists_pos_nat, List.mem_map, exists_exists_and_eq_and,
      Nat.sub_pos_iff_lt, Nat.succ_le_iff]
  refine ⟨top, path, hpath, ?_⟩
  rw [hpath]
  refine ⟨hcount, ?_, fun upper => Selector.isInfix_trim_ofPath⟩
  rw [mem_ampersand_iff, mem_ampersand_iff, hcount, ← hspare]
  omega

/-- An ampersand is left at every level, and the last one is in front of another. -/
def leftoverSheet : Sheet :=
  ⟨[("a&", .nest "& + &" (.nest " &&b " (.declare "x" (.text "1") .empty) .empty) .empty)]⟩

/-- Three levels with an `&` in each: those of the first stay, and of the others one each is
gone. -/
theorem ampersands_conserved_leftover :
    leftoverSheet.css = "a& + &&b\x7bx:1;\x7d" ∧
    (⟨["a&", "& + &", " &&b "], .declare "x" (.text "1") .empty⟩ : Located Style) ∈
      leftoverSheet.nodes ∧
    ampersands "a& + &&b" = ampersands "a&" +
      (["& + &", " &&b "].map fun key => ampersands key - 1).sum ∧
    trim "a& + &".toList <:+: "a& + &&b".toList := by
  have hmem : (⟨["a&", "& + &", " &&b "], .declare "x" (.text "1") .empty⟩ : Located Style) ∈
      leftoverSheet.nodes := by decide
  have hselector : Selector.ofPath ["a&", "& + &", " &&b "] = "a& + &&b" := by decide
  have hparent : Selector.ofPath ["a&", "& + &"] = "a& + &" := by decide
  obtain ⟨hcss, hnodes⟩ := ampersands_conserved leftoverSheet
  obtain ⟨top, path, hpath, hcount, -, hpart⟩ := hnodes _ hmem
  obtain ⟨rfl, rfl⟩ := List.cons.inj hpath
  rw [hselector] at hcount hpart
  have hbelow := hpart ["& + &"] ⟨[" &&b "], rfl⟩
  rw [hparent] at hbelow
  exact ⟨hcss.trans (by decide), hmem, hcount, hbelow⟩

end NestedStyles

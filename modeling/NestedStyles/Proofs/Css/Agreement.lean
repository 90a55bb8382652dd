import Mathlib.Algebra.BigOperators.Group.Multiset.Basic
import Mathlib.Algebra.GroupWithZero.Nat
import NestedStyles.Proofs.Css.Flattening
import NestedStyles.Proofs.Numeric.Numeral
import NestedStyles.Proofs.Style.Agreement

/-!
# Style sheets of equal sheets

Sheets that are equal as maps flatten to the same rules up to order: equal values are written
alike, and moving entries about moves rules and declarations about (`agrees_css`).
-/

namespace NestedStyles

/-! ## Equal values are written alike -/

/-- Equal values are written alike, the two zeros too. -/
theorem Value.written_eq_of_agrees {v w : Value} (h : v.agrees w = true) :
    v.written = w.written := by
  cases v with
  | number x =>
    cases w with
    | number y => exact Binary64.text_eq_of_agrees h
    | text t => cases h
  | text s =>
    cases w with
    | number y => cases h
    | text t => exact beq_iff_eq.mp h

/-! ## Rules up to the order of declarations -/

namespace Rule

/-- The selector of a rule and the texts of its declarations, in order. -/
def lines (rule : Rule) : String × List String :=
  (rule.selector, rule.declarations.map declarationText)

/-- The selector of a rule and the texts of its declarations, in any order. -/
def bag (rule : Rule) : String × Multiset String :=
  (rule.selector, (rule.declarations.map declarationText : List String))

end Rule

/-- Whatever is made of the lines of rules is the same where the lines are. -/
theorem map_eq_of_lines {rules rules' : List Rule} (f : String × List String → β)
    (h : rules.map Rule.lines = rules'.map Rule.lines) :
    rules.map (f ∘ Rule.lines) = rules'.map (f ∘ Rule.lines) := by
  rw [← List.map_map, h, List.map_map]

theorem map_text_eq_of_lines {rules rules' : List Rule}
    (h : rules.map Rule.lines = rules'.map Rule.lines) :
    rules.map Rule.text = rules'.map Rule.text :=
  map_eq_of_lines (fun lines => lines.1 ++ "\x7b" ++ String.join lines.2 ++ "\x7d") h

theorem map_bag_eq_of_lines {rules rules' : List Rule}
    (h : rules.map Rule.lines = rules'.map Rule.lines) :
    rules.map Rule.bag = rules'.map Rule.bag :=
  map_eq_of_lines (fun lines => (lines.1, (lines.2 : Multiset String))) h

/-- A view of rules that does not tell the declarations of two styles apart does not tell apart
the rules of these at one place. -/
theorem map_rulesOf_node {f : Rule → β} {selector : List String → String} {path : List String}
    {s t : Style} (hlength : s.declarations.length = t.declarations.length)
    (hf : f ⟨selector path, s.declarations⟩ = f ⟨selector path, t.declarations⟩) :
    (rulesOf selector [⟨path, s⟩]).map f = (rulesOf selector [⟨path, t⟩]).map f := by
  have hempty : s.declarations.isEmpty = t.declarations.isEmpty := by
    rw [Bool.eq_iff_iff, List.isEmpty_iff_length_eq_zero, hlength,
      List.isEmpty_iff_length_eq_zero]
  cases h : t.declarations.isEmpty <;> simp [rulesOf, h, hempty, hf]

namespace Style

namespace Matches

theorem map_declarationText {s t : Style} (h : Matches s t) :
    s.declarations.map declarationText = t.declarations.map declarationText := by
  induction h with
  | empty => rfl
  | declare hvalue _ ih =>
    simp only [declarations, List.map_cons, ih, declarationText,
      Value.written_eq_of_agrees hvalue]
  | nest _ _ _ ih => exact ih

theorem lines_node {s t : Style} (h : Matches s t) (selector : List String → String)
    (path : List String) :
    (rulesOf selector [⟨path, s⟩]).map Rule.lines =
      (rulesOf selector [⟨path, t⟩]).map Rule.lines := by
  have htexts := h.map_declarationText
  refine map_rulesOf_node ?_ (congrArg (Prod.mk _) htexts)
  simpa using congrArg List.length htexts

theorem lines_inner {s t : Style} (h : Matches s t) (selector : List String → String) :
    (rulesOf selector s.inner).map Rule.lines = (rulesOf selector t.inner).map Rule.lines := by
  induction h generalizing selector with
  | empty => rfl
  | declare _ _ ih => exact ih selector
  | nest hchild _ ihChild ihRest =>
    simp only [rulesOf_inner_nest, rulesOf_nodes, List.map_append, hchild.lines_node, ihChild,
      ihRest]

/-- Styles that match entry by entry have rules of the same lines. -/
theorem lines_nodes {s t : Style} (h : Matches s t) (selector : List String → String) :
    (rulesOf selector s.nodes).map Rule.lines = (rulesOf selector t.nodes).map Rule.lines := by
  rw [rulesOf_nodes, rulesOf_nodes, List.map_append, List.map_append, h.lines_node, h.lines_inner]

end Matches

theorem declarations_ofEntries_cons (entry : String × Entry) (es : Keyed String Entry) :
    (ofEntries (entry :: es)).declarations =
      (ofEntries [entry]).declarations ++ (ofEntries es).declarations :=
  declarations_ofEntries_append [entry] es

theorem inner_ofEntries_cons (entry : String × Entry) (es : Keyed String Entry) :
    (ofEntries (entry :: es)).inner = (ofEntries [entry]).inner ++ (ofEntries es).inner :=
  inner_ofEntries_append [entry] es

namespace Reordered

/-- A style that is rearranged has the same declarations, in some order. -/
theorem declarations_perm {s t : Style} (h : Reordered s t) :
    s.declarations.Perm t.declarations := by
  induction h with
  | empty => exact .nil
  | declare _ ih => exact ih.cons _
  | nest _ _ _ ih => exact ih
  | swap entry other rest =>
    simp only [declarations_ofEntries_cons _ (_ :: _), declarations_ofEntries_cons _ rest]
    exact List.perm_append_comm_assoc ..
  | trans _ _ ih ih' => exact ih.trans ih'

theorem bag_node {s t : Style} (h : Reordered s t) (selector : List String → String)
    (path : List String) :
    (rulesOf selector [⟨path, s⟩]).map Rule.bag = (rulesOf selector [⟨path, t⟩]).map Rule.bag := by
  have hperm := h.declarations_perm
  exact map_rulesOf_node hperm.length_eq
    (congrArg (Prod.mk _) (Multiset.coe_eq_coe.mpr (hperm.map declarationText)))

theorem bags_inner {s t : Style} (h : Reordered s t) (selector : List String → String) :
    ((rulesOf selector s.inner).map Rule.bag).Perm ((rulesOf selector t.inner).map Rule.bag) := by
  induction h generalizing selector with
  | empty => exact .nil
  | declare _ ih => exact ih selector
  | nest hchild _ ihChild ihRest =>
    simp only [rulesOf_inner_nest, rulesOf_nodes, List.map_append, hchild.bag_node]
    exact ((ihChild _).append_left _).append (ihRest selector)
  | swap entry other rest =>
    simp only [inner_ofEntries_cons _ (_ :: _), inner_ofEntries_cons _ rest, rulesOf_append,
      List.map_append]
    exact List.perm_append_comm_assoc ..
  | trans _ _ ih ih' => exact (ih selector).trans (ih' selector)

/-- A style that is rearranged has the same rules up to the order of rules and of declarations. -/
theorem bags_nodes {s t : Style} (h : Reordered s t) (selector : List String → String) :
    ((rulesOf selector s.nodes).map Rule.bag).Perm ((rulesOf selector t.nodes).map Rule.bag) := by
  rw [rulesOf_nodes, rulesOf_nodes, List.map_append, List.map_append, h.bag_node]
  exact (h.bags_inner selector).append_left _

end Reordered

/-- Equal styles have the same rules up to order, if the keys of one are distinct. -/
theorem bags_nodes_of_agrees {s t : Style} (hkeys : s.UniqueKeys) (h : s.agrees t = true)
    (selector : List String → String) :
    ((rulesOf selector s.nodes).map Rule.bag).Perm ((rulesOf selector t.nodes).map Rule.bag) := by
  obtain ⟨u, hmatches, hreordered⟩ := exists_matches hkeys h
  rw [map_bag_eq_of_lines (hmatches.lines_nodes selector)]
  exact hreordered.bags_nodes selector

end Style

/-! ## Sizes -/

/-- The bytes of a rule, which do not depend on the order of its declarations. -/
def bagSize (bag : String × Multiset String) : Nat :=
  bag.1.utf8ByteSize + (bag.2.map String.utf8ByteSize).sum + 2

theorem utf8ByteSize_join (texts : List String) :
    (String.join texts).utf8ByteSize = (texts.map String.utf8ByteSize).sum := by
  induction texts with
  | nil => rfl
  | cons text texts ih => simp [String.utf8ByteSize_append, ih]

/-- The size of a rule does not depend on the order of its declarations. -/
theorem Rule.utf8ByteSize_text (rule : Rule) : rule.text.utf8ByteSize = bagSize rule.bag := by
  have hopen : "\x7b".utf8ByteSize = 1 := rfl
  have hclose : "\x7d".utf8ByteSize = 1 := rfl
  simp only [text, String.utf8ByteSize_append, utf8ByteSize_join, hopen, hclose, bagSize, bag,
    Multiset.map_coe, Multiset.sum_coe]
  omega

theorem utf8ByteSize_texts (rules : List Rule) :
    (String.join (rules.map Rule.text)).utf8ByteSize =
      ((rules.map Rule.bag).map bagSize).sum := by
  rw [utf8ByteSize_join, List.map_map, List.map_map]
  exact congrArg List.sum (List.map_congr_left fun rule _ => rule.utf8ByteSize_text)

/-! ## Sheets -/

namespace Sheet

theorem bags_groups {groups others : Keyed String Style}
    (h : List.Forall₂ (Keyed.SameKey Style.Agrees) groups others)
    (hkeys : ∀ group ∈ groups, group.2.UniqueKeys) :
    ((groups.flatMap fun group => group.2.rules (some group.1)).map Rule.bag).Perm
      ((others.flatMap fun group => group.2.rules (some group.1)).map Rule.bag) := by
  induction h with
  | nil => exact .nil
  | @cons group other groups others hgroup _ ih =>
    obtain ⟨hstyle, hrest⟩ := List.forall_mem_cons.mp hkeys
    obtain ⟨hselector, hagrees⟩ := hgroup
    rw [List.flatMap_cons, List.flatMap_cons, List.map_append, List.map_append, ← hselector]
    exact (Style.bags_nodes_of_agrees hstyle hagrees _).append (ih hrest)

/-- Equal sheets have the same rules up to the order of rules and of declarations. -/
theorem bags_perm {t u : Sheet} (hkeys : t.UniqueKeys) (h : t.agrees u = true) :
    (t.rules.map Rule.bag).Perm (u.rules.map Rule.bag) := by
  obtain ⟨hlength, hcovers⟩ := agrees_iff.mp h
  obtain ⟨matched, hmatched, hperm⟩ := Keyed.exists_perm_of_covers hkeys.nodup hlength hcovers
  rw [rules_eq_flatMap, rules_eq_flatMap]
  exact (bags_groups hmatched hkeys.styles).trans ((hperm.flatMap_right _).map _)

theorem lines_groups {groups others : Keyed String Style}
    (h : List.Forall₂ (Keyed.SameKey Style.Agrees) groups others)
    (horder : List.Forall₂ (Keyed.SameKey Style.SameOrder) groups others)
    (hkeys : ∀ group ∈ groups, group.2.UniqueKeys) :
    (groups.flatMap fun group => group.2.rules (some group.1)).map Rule.lines =
      (others.flatMap fun group => group.2.rules (some group.1)).map Rule.lines := by
  induction h with
  | nil => rfl
  | @cons group other groups others hgroup _ ih =>
    obtain ⟨hstyle, hrest⟩ := List.forall_mem_cons.mp hkeys
    obtain ⟨⟨hselector, hstyleOrder⟩, hrestOrder⟩ := List.forall₂_cons.mp horder
    have hmatches := Style.matches_of_sameOrder hstyle hstyleOrder hgroup.2
    rw [List.flatMap_cons, List.flatMap_cons, List.map_append, List.map_append, ← hselector,
      ih hrestOrder hrest]
    exact congrArg (· ++ _) (hmatches.lines_nodes _)

/-- Equal sheets with their entries in the same order have rules of the same lines. -/
theorem lines_eq {t u : Sheet} (hkeys : t.UniqueKeys) (h : t.agrees u = true)
    (horder : t.SameOrder u) : t.rules.map Rule.lines = u.rules.map Rule.lines := by
  have hgroups := Keyed.forall₂_of_covers hkeys.nodup (Keyed.keys_eq_of_forall₂ horder)
    (agrees_iff.mp h).2
  rw [rules_eq_flatMap, rules_eq_flatMap]
  exact lines_groups hgroups horder hkeys.styles

/-- Sheets that are equal as maps have the same rules, whatever the order of their groups and
entries, and the same size. With the keys in one order they have the same text. -/
theorem agrees_css (t u : Sheet) (hkeys : t.UniqueKeys) (h : t.agrees u = true) :
    (t.css = String.join (t.rules.map Rule.text) ∧ u.css = String.join (u.rules.map Rule.text) ∧
      (t.rules.map Rule.bag : Multiset (String × Multiset String)) = u.rules.map Rule.bag) ∧
    t.css.utf8ByteSize = u.css.utf8ByteSize ∧
    (t.SameOrder u → t.css = u.css) := by
  have hbags := bags_perm hkeys h
  refine ⟨⟨t.css_eq, u.css_eq, Multiset.coe_eq_coe.mpr hbags⟩, ?_, fun horder => ?_⟩
  · rw [css_eq, css_eq, utf8ByteSize_texts, utf8ByteSize_texts]
    exact (hbags.map bagSize).sum_eq
  · rw [css_eq, css_eq, map_text_eq_of_lines (lines_eq hkeys h horder)]

/-- A zero of either sign in front of a nested style. -/
def zeroSheet (negative : Bool) : Sheet :=
  ⟨[("a", .declare "x" (.number (.zero negative)) (.nest "b" (.declare "y" (.text "1") .empty)
      (.declare "z" (.text "2") .empty))),
    ("c", .empty)]⟩

/-- The same with its groups and entries in another order. -/
def movedZeroSheet : Sheet :=
  ⟨[("c", .empty),
    ("a", .nest "b" (.declare "y" (.text "1") .empty)
      (.declare "z" (.text "2") (.declare "x" (.number (.zero true)) .empty)))]⟩

/-- A sheet, the same with its entries moved, and the same with a zero of the other sign. -/
theorem agrees_css_zero :
    (zeroSheet false).UniqueKeys ∧ (zeroSheet false).agrees movedZeroSheet = true ∧
    ((zeroSheet false).rules.map Rule.bag : Multiset (String × Multiset String)) =
      movedZeroSheet.rules.map Rule.bag ∧
    (zeroSheet false).css.utf8ByteSize = movedZeroSheet.css.utf8ByteSize ∧
    (zeroSheet false).agrees (zeroSheet true) = true ∧
    (zeroSheet false).SameOrder (zeroSheet true) ∧
    (zeroSheet false).css = (zeroSheet true).css := by
  have hkeys : (zeroSheet false).UniqueKeys := by
    refine ⟨by decide, ?_⟩
    simp [zeroSheet, Style.UniqueKeys, Style.keys, Style.entries]
  have hmoved : (zeroSheet false).agrees movedZeroSheet = true := by decide +kernel
  have hnegated : (zeroSheet false).agrees (zeroSheet true) = true := by decide +kernel
  have horder : (zeroSheet false).SameOrder (zeroSheet true) := by
    simp [zeroSheet, SameOrder, Keyed.SameKey, Style.SameOrder]
  obtain ⟨⟨-, -, hbags⟩, hsize, -⟩ := agrees_css _ _ hkeys hmoved
  obtain ⟨-, -, hcss⟩ := agrees_css _ _ hkeys hnegated
  exact ⟨hkeys, hmoved, hbags, hsize, hnegated, horder, hcss horder⟩

end Sheet
end NestedStyles

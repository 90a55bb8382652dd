import NestedStyles.Proofs.Css.Flattening
import NestedStyles.Proofs.Keyed

/-!
# Segments of a style sheet

The text of a style is the rule of its own declarations and behind it what the styles nested in it
are written as, one after the other (`Style.css_eq_append`, `Style.nestedText_append`). The text of
a sheet is that of its groups, one after the other (`Sheet.css_append`). So groups that are written
alike can be put in each other's place (`Sheet.write_eq_of_forall₂`).
-/

namespace NestedStyles
namespace Style

/-- The rule of a style's own declarations, if there are any. -/
def ownText (s : Style) (parent : Option String) : String :=
  if s.declarations.isEmpty then "" else Rule.text ⟨parent.getD "", s.declarations⟩

/-- The rules of the styles nested in a style, at every depth. -/
def nestedText (s : Style) (parent : Option String) : String :=
  String.join ((rulesOf (Selector.descend (parent.getD "")) s.inner).map Rule.text)

/-- The text of a style is that of its own rule, if it has one, and that of its nested styles. -/
theorem css_eq_append (s : Style) (parent : Option String) :
    s.css parent = s.ownText parent ++ s.nestedText parent := by
  have hown : String.join ((rulesOf (Selector.descend (parent.getD "")) [⟨[], s⟩]).map Rule.text) =
      s.ownText parent := by
    cases h : s.declarations <;> simp [rulesOf, ownText, h]
  rw [css_eq, rules, rulesOf_nodes, List.map_append, String.join_append, hown, nestedText]

theorem ownText_of_declarations_eq_nil {s : Style} (h : s.declarations = [])
    (parent : Option String) : s.ownText parent = "" := by
  rw [ownText, h]
  rfl

/-! ## Nested styles one by one -/

@[simp] theorem nestedText_nest (fragment : String) (child rest : Style)
    (parent : Option String) :
    (nest fragment child rest).nestedText parent =
      child.css (some (Selector.compose fragment parent)) ++ rest.nestedText parent := by
  rw [nestedText, rulesOf_inner_nest, List.map_append, String.join_append, css_eq]
  rfl

/-- The texts of nested styles follow each other as the entries do. -/
theorem nestedText_append (front back : Keyed String Entry) (parent : Option String) :
    (ofEntries (front ++ back)).nestedText parent =
      (ofEntries front).nestedText parent ++ (ofEntries back).nestedText parent := by
  rw [nestedText, inner_ofEntries_append, rulesOf_append, List.map_append, String.join_append,
    nestedText, nestedText]

/-- The same text and the same records, under every parent and behind every output. -/
def WrittenAlike (s s' : Style) : Prop :=
  ∀ (parent : Option String) (out : Output), s.write parent out = s'.write parent out

theorem WrittenAlike.css_eq {s s' : Style} (h : WrittenAlike s s') (parent : Option String) :
    s.css parent = s'.css parent := congrArg Output.css (h parent _)

end Style

namespace Sheet

@[simp] theorem css_nil : css ⟨[]⟩ = "" := rfl

/-- The text of a sheet is that of its groups, one after the other. -/
theorem css_cons (selector : String) (s : Style) (groups : Keyed String Style) :
    css ⟨(selector, s) :: groups⟩ = s.css (some selector) ++ css ⟨groups⟩ := by
  rw [css_eq, css_eq, rules_eq_flatMap, rules_eq_flatMap, List.flatMap_cons, List.map_append,
    String.join_append, Style.css_eq]

theorem css_append (front back : Keyed String Style) :
    css ⟨front ++ back⟩ = css ⟨front⟩ ++ css ⟨back⟩ := by
  induction front with
  | nil => rw [css_nil, String.empty_append, List.nil_append]
  | cons group front ih =>
    rw [List.cons_append, css_cons, css_cons, ih, String.append_assoc]

theorem foldl_write_eq_of_forall₂ {groups others : Keyed String Style}
    (h : List.Forall₂ (Keyed.SameKey Style.WrittenAlike) groups others) (out : Output) :
    groups.foldl (fun out group => group.2.write (some group.1) out) out =
      others.foldl (fun out group => group.2.write (some group.1) out) out := by
  induction h generalizing out with
  | nil => rfl
  | cons hgroup _ ih =>
    obtain ⟨hselector, halike⟩ := hgroup
    rw [List.foldl_cons, List.foldl_cons, ← hselector, halike, ih]

/-- Sheets are written alike if they have the same selectors in the same order, over styles in a
relation that only holds of styles that are written alike. -/
theorem write_eq_of_forall₂ {r : Style → Style → Prop}
    (hr : ∀ {s s' : Style}, r s s' → s.WrittenAlike s') {t u : Sheet}
    (h : List.Forall₂ (Keyed.SameKey r) t.groups u.groups) (out : Output) :
    t.write out = u.write out := by
  have halike : List.Forall₂ (Keyed.SameKey Style.WrittenAlike) t.groups u.groups :=
    h.imp fun _ _ hgroup => ⟨hgroup.1, hr hgroup.2⟩
  rw [write, write, size, size, foldl_write_eq_of_forall₂ halike, h.length_eq]

end Sheet
end NestedStyles

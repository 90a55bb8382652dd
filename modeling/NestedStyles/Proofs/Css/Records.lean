import Mathlib.Algebra.GroupWithZero.Nat
import NestedStyles.Proofs.Css.Flattening

/-!
# Records of writing

Each rule is reported as it is written, so what is reported is the list of rules once more, told
by their selectors and sizes (`Output.log_writeRules`). A sheet adds how many groups it has and how
much text they have become (`records_mirror_rules`).
-/

namespace NestedStyles

/-! ## Counting declarations -/

namespace Style

/-- How many declarations there are in a style, at every depth. -/
def declarationCount : Style → Nat
  | empty => 0
  | declare _ _ rest => rest.declarationCount + 1
  | nest _ inner rest => inner.declarationCount + rest.declarationCount

/-- Every declaration is that of one node. -/
theorem sum_declarations_inner (s : Style) :
    s.declarations.length + (s.inner.map fun node => node.content.declarations.length).sum =
      s.declarationCount := by
  induction s with
  | empty => rfl
  | declare name value rest ih =>
    rw [declarationCount, ← ih, declarations, List.length_cons, inner, Nat.add_right_comm]
  | nest fragment child rest ihChild ihRest =>
    have hunder : (child.inner.map (Located.under fragment)).map
        (fun node => node.content.declarations.length) =
          child.inner.map fun node => node.content.declarations.length := by
      rw [List.map_map]
      rfl
    rw [declarationCount, ← ihChild, ← ihRest, declarations, inner, List.map_append,
      List.sum_append, List.map_cons, List.map_cons, List.sum_cons, hunder]
    exact Nat.add_left_comm ..

theorem sum_declarations_nodes (s : Style) :
    (s.nodes.map fun node => node.content.declarations.length).sum = s.declarationCount :=
  s.sum_declarations_inner

end Style

namespace Sheet

/-- How many declarations there are in a sheet, at every depth. -/
def declarationCount (t : Sheet) : Nat :=
  (t.groups.map fun group => group.2.declarationCount).sum

theorem sum_declarations_nodes (t : Sheet) :
    (t.nodes.map fun node => node.content.declarations.length).sum = t.declarationCount := by
  obtain ⟨groups⟩ := t
  induction groups with
  | nil => rfl
  | cons group groups ih =>
    rw [nodes_cons, List.map_append, List.sum_append, List.map_map]
    exact congr (congrArg HAdd.hAdd group.2.sum_declarations_nodes) ih

end Sheet

/-- Leaving out the nodes without declarations leaves out no declaration. -/
theorem sum_declarations_rulesOf (selector : List String → String)
    (nodes : List (Located Style)) :
    ((rulesOf selector nodes).map fun rule => rule.declarations.length).sum =
      (nodes.map fun node => node.content.declarations.length).sum := by
  have h := congrArg List.length (flatMap_rulesOf selector nodes)
  simpa only [List.length_flatMap, List.length_map] using h

/-! ## Records -/

/-- What is reported of a rule. -/
def Rule.record (rule : Rule) : Record := .rule rule.selector rule.declarations.length

/-- A record as it is shown: its level and its message. -/
def Record.shown (record : Record) : String × String := (record.level.name, record.message)

namespace Output

theorem log_writeRule {out : Output} {rule : Rule} (h : rule.declarations ≠ []) :
    (out.writeRule rule).log = out.log ++ [rule.record] := by
  simp [writeRule, h, Rule.record]

/-- Every rule that is appended is reported, in order. -/
theorem log_writeRules {out : Output} {rules : List Rule}
    (h : ∀ rule ∈ rules, rule.declarations ≠ []) :
    (out.writeRules rules).log = out.log ++ rules.map Rule.record := by
  induction rules generalizing out with
  | nil => simp
  | cons rule rules ih =>
    obtain ⟨hrule, hrules⟩ := List.forall_mem_cons.mp h
    calc ((out.writeRule rule).writeRules rules).log
      _ = (out.writeRule rule).log ++ rules.map Rule.record := ih hrules
      _ = out.log ++ (rule :: rules).map Rule.record := by
        rw [log_writeRule hrule, List.append_assoc, List.map_cons, List.singleton_append]

end Output

/-- Writing a style reports its rules and nothing else. -/
theorem Style.log_write (s : Style) (parent : Option String) (out : Output) :
    (s.write parent out).log = out.log ++ (s.rules parent).map Rule.record := by
  rw [write_eq]
  exact Output.log_writeRules fun _ => declarations_ne_nil_of_mem_rulesOf _

namespace Sheet

theorem css_write_eq_append (t : Sheet) (out : Output) : (t.write out).css = out.css ++ t.css := by
  rw [css_write, css_eq]

/-- The size that is reported is that of the text which is appended, whatever stands in front. -/
theorem log_write (t : Sheet) (out : Output) :
    (t.write out).log = out.log ++ t.rules.map Rule.record ++
      [.flattened t.groups.length t.css.utf8ByteSize] := by
  have hsize : (t.write out).css.utf8ByteSize - out.css.utf8ByteSize = t.css.utf8ByteSize := by
    rw [css_write_eq_append, String.utf8ByteSize_append, Nat.add_sub_cancel_left]
  have hlog : (out.writeRules t.rules).log = out.log ++ t.rules.map Rule.record :=
    Output.log_writeRules fun _ => declarations_ne_nil_of_mem_rulesOf _
  rw [← hsize, write_eq, hlog]
  rfl

end Sheet

/-- Behind any output, a sheet reports each rule that it writes, in the order of the text, by its
selector and by how many declarations it has, and then how many groups it has and how many bytes it
has added. The rules have all declarations of the sheet. -/
theorem records_mirror_rules (t : Sheet) (out : Output) :
    (t.write out).css = out.css ++ t.css ∧ t.css = String.join (t.rules.map Rule.text) ∧
    (t.write out).log = out.log ++ t.rules.map Rule.record ++
      [.flattened t.groups.length t.css.utf8ByteSize] ∧
    (t.write out).log.map Record.shown = out.log.map Record.shown ++
      t.rules.map (fun rule =>
        ("TRACE", s!"rule `{rule.selector}` with {rule.declarations.length} declaration(s)")) ++
      [("DEBUG",
        s!"compiled {t.groups.length} rule group(s) into {t.css.utf8ByteSize} byte(s) of CSS")] ∧
    (t.rules.map fun rule => rule.declarations.length).sum = t.declarationCount := by
  refine ⟨t.css_write_eq_append out, t.css_eq, t.log_write out, ?_, ?_⟩
  · rw [t.log_write, List.map_append, List.map_append, List.map_map]
    rfl
  · rw [Sheet.rules, sum_declarations_rulesOf, t.sum_declarations_nodes]

end NestedStyles

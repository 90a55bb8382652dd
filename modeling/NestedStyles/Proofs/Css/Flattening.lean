import NestedStyles.Css.Output
import NestedStyles.Proofs.Css.Selector
import NestedStyles.Proofs.Style.Nodes

/-!
# Flattening in preorder

The rules of a style sheet without recursion on text: list the nodes in preorder, give each the
selector that its keys compose to, and leave out those without declarations. Writing appends
exactly these rules, one after the other (`Style.write_eq`, `Sheet.write_eq`), so the text is
theirs (`flatten_eq_preorder`).
-/

namespace NestedStyles

/-- The rules of nodes that have declarations, in order, each under the selector of its path. -/
def rulesOf (selector : List String → String) (nodes : List (Located Style)) : List Rule :=
  (nodes.map fun node => ⟨selector node.path, node.content.declarations⟩).filter
    fun rule => !rule.declarations.isEmpty

section
variable (selector : List String → String)

@[simp] theorem rulesOf_nil : rulesOf selector [] = [] := rfl

@[simp] theorem rulesOf_append (nodes nodes' : List (Located Style)) :
    rulesOf selector (nodes ++ nodes') = rulesOf selector nodes ++ rulesOf selector nodes' := by
  simp [rulesOf]

@[simp] theorem rulesOf_map_under (key : String) (nodes : List (Located Style)) :
    rulesOf selector (nodes.map (.under key)) =
      rulesOf (fun path => selector (key :: path)) nodes := by
  simp [rulesOf, Function.comp_def]

theorem rulesOf_flatMap (l : List α) (f : α → List (Located Style)) :
    rulesOf selector (l.flatMap f) = l.flatMap fun a => rulesOf selector (f a) := by
  induction l with
  | nil => rfl
  | cons a l ih => simp [ih]

theorem rulesOf_nodes (s : Style) :
    rulesOf selector s.nodes = rulesOf selector [⟨[], s⟩] ++ rulesOf selector s.inner := by
  rw [Style.nodes, ← List.singleton_append, rulesOf_append]

theorem rulesOf_inner_nest (fragment : String) (child rest : Style) :
    rulesOf selector (Style.nest fragment child rest).inner =
      rulesOf (fun path => selector (fragment :: path)) child.nodes ++
        rulesOf selector rest.inner := by
  rw [Style.inner, rulesOf_append, rulesOf_map_under, Style.nodes]

theorem declarations_ne_nil_of_mem_rulesOf {nodes : List (Located Style)} {rule : Rule}
    (h : rule ∈ rulesOf selector nodes) : rule.declarations ≠ [] := by
  simpa using (List.mem_filter.mp h).2

/-- Every declaration of every node is in the rules once, under the selector of its node. -/
theorem flatMap_rulesOf (nodes : List (Located Style)) :
    ((rulesOf selector nodes).flatMap fun rule => rule.declarations.map (rule.selector, ·)) =
      nodes.flatMap fun node => node.content.declarations.map (selector node.path, ·) := by
  induction nodes with
  | nil => rfl
  | cons node nodes ih =>
    rw [← List.singleton_append, rulesOf_append, List.flatMap_append, List.flatMap_append, ih]
    congr 1
    cases h : node.content.declarations <;> simp [rulesOf, h]

end

namespace Style

/-- The rules of a style under a parent, in the order in which they are written. -/
def rules (s : Style) (parent : Option String) : List Rule :=
  rulesOf (Selector.descend (parent.getD "")) s.nodes

end Style

namespace Sheet

/-- The rules of a sheet, in the order in which they are written. -/
def rules (t : Sheet) : List Rule := rulesOf Selector.ofPath t.nodes

/-- A style with declarations is emitted under its selector. -/
theorem mem_rules {t : Sheet} {node : Located Style} (h : node ∈ t.nodes)
    (hne : node.content.declarations ≠ []) :
    ⟨Selector.ofPath node.path, node.content.declarations⟩ ∈ t.rules :=
  List.mem_filter.mpr ⟨List.mem_map_of_mem h, by simpa using hne⟩

theorem rules_eq_flatMap (t : Sheet) :
    t.rules = t.groups.flatMap fun group => group.2.rules (some group.1) := by
  simp only [rules, nodes, rulesOf_flatMap, rulesOf_map_under]
  rfl

end Sheet

/-! ## Writing rules -/

namespace Output

def writeRules (out : Output) (rules : List Rule) : Output := rules.foldl writeRule out

@[simp] theorem writeRules_nil (out : Output) : out.writeRules [] = out := rfl

@[simp] theorem writeRules_append (out : Output) (rules rules' : List Rule) :
    out.writeRules (rules ++ rules') = (out.writeRules rules).writeRules rules' :=
  List.foldl_append

/-- A node without declarations is not written, and has no rule. -/
theorem writeRules_node (out : Output) (selector : List String → String) (node : Located Style) :
    out.writeRules (rulesOf selector [node]) =
      out.writeRule ⟨selector node.path, node.content.declarations⟩ := by
  cases h : node.content.declarations <;> simp [rulesOf, writeRules, writeRule, h]

theorem css_writeRule {out : Output} {rule : Rule} (h : rule.declarations ≠ []) :
    (out.writeRule rule).css = out.css ++ rule.text := by
  simp [writeRule, h]

theorem css_writeRules {out : Output} {rules : List Rule}
    (h : ∀ rule ∈ rules, rule.declarations ≠ []) :
    (out.writeRules rules).css = out.css ++ String.join (rules.map Rule.text) := by
  induction rules generalizing out with
  | nil => simp
  | cons rule rules ih =>
    have hrule := h rule List.mem_cons_self
    have hrules := fun r hr => h r (List.mem_cons_of_mem _ hr)
    calc ((out.writeRule rule).writeRules rules).css
      _ = (out.writeRule rule).css ++ String.join (rules.map Rule.text) := ih hrules
      _ = out.css ++ String.join ((rule :: rules).map Rule.text) := by
        rw [css_writeRule hrule, List.map_cons, String.join_cons, String.append_assoc]

end Output

namespace Style

/-- Writing nested styles is appending the rules of the styles inside. -/
theorem writeNested_eq (s : Style) (parent : Option String) (out : Output) :
    s.writeNested parent out =
      out.writeRules (rulesOf (Selector.descend (parent.getD "")) s.inner) := by
  induction s generalizing parent out with
  | empty => rfl
  | declare name value rest ih => exact ih parent out
  | nest fragment child rest ihChild ihRest =>
    -- the child's own rule comes first, then what is nested in it, then the other entries
    rw [writeNested, ihRest, ihChild, rulesOf_inner_nest, rulesOf_nodes, Output.writeRules_append,
      Output.writeRules_append, Output.writeRules_node]
    rfl

theorem write_eq (s : Style) (parent : Option String) (out : Output) :
    s.write parent out = out.writeRules (s.rules parent) := by
  rw [write, writeNested_eq, rules, rulesOf_nodes, Output.writeRules_append,
    Output.writeRules_node]
  rfl

end Style

namespace Sheet

theorem foldl_write (groups : Keyed String Style) (out : Output) :
    groups.foldl (fun out group => group.2.write (some group.1) out) out =
      out.writeRules (groups.flatMap fun group => group.2.rules (some group.1)) := by
  induction groups generalizing out with
  | nil => rfl
  | cons group groups ih =>
    rw [List.foldl_cons, ih, Style.write_eq, List.flatMap_cons, Output.writeRules_append]

/-- Writing a sheet writes its rules and then reports their number and size. -/
theorem write_eq (t : Sheet) (out : Output) :
    t.write out =
      { out.writeRules t.rules with
        log := (out.writeRules t.rules).log ++
          [.flattened t.size
            ((out.writeRules t.rules).css.utf8ByteSize - out.css.utf8ByteSize)] } := by
  rw [write, foldl_write, rules_eq_flatMap]

theorem css_write (t : Sheet) (out : Output) :
    (t.write out).css = out.css ++ String.join (t.rules.map Rule.text) := by
  rw [write_eq]
  exact Output.css_writeRules fun _ => declarations_ne_nil_of_mem_rulesOf _

theorem css_eq (t : Sheet) : t.css = String.join (t.rules.map Rule.text) := by
  rw [css, css_write, String.empty_append]

end Sheet

namespace Style

theorem css_write (s : Style) (parent : Option String) (out : Output) :
    (s.write parent out).css = out.css ++ String.join ((s.rules parent).map Rule.text) := by
  rw [write_eq]
  exact Output.css_writeRules fun _ => declarations_ne_nil_of_mem_rulesOf _

theorem css_eq (s : Style) (parent : Option String) :
    s.css parent = String.join ((s.rules parent).map Rule.text) := by
  rw [css, css_write, String.empty_append]

end Style

/-- Flattening appends the rules of the nodes with declarations in preorder and nothing else, for a
sheet and for a style under any parent selector. Those rules hold every declaration among the
entries of every node once, in order, under the selector of the node's path. -/
theorem flatten_eq_preorder :
    (∀ s : Style, s.nodes =
      ⟨[], s⟩ :: (s.entries.filterMap fun entry => entry.2.style?.map (entry.1, ·)).flatMap
        fun child => child.2.nodes.map (.under child.1)) ∧
    (∀ (t : Sheet) (out : Output),
      (t.write out).css = out.css ++ String.join (t.rules.map Rule.text) ∧
      t.css = String.join (t.rules.map Rule.text) ∧
      (t.rules.flatMap fun rule => rule.declarations.map (rule.selector, ·)) =
        t.nodes.flatMap fun node =>
          (node.content.entries.filterMap fun entry => entry.2.value?.map (entry.1, ·)).map
            (Selector.ofPath node.path, ·)) ∧
    ∀ (s : Style) (parent : Option String) (out : Output),
      (s.write parent out).css = out.css ++ String.join ((s.rules parent).map Rule.text) ∧
      s.css parent = String.join ((s.rules parent).map Rule.text) ∧
      ((s.rules parent).flatMap fun rule => rule.declarations.map (rule.selector, ·)) =
        s.nodes.flatMap fun node =>
          (node.content.entries.filterMap fun entry => entry.2.value?.map (entry.1, ·)).map
            (Selector.descend (parent.getD "") node.path, ·) := by
  simp only [← Style.declarations_eq_filterMap]
  refine ⟨fun s => ?_, fun t out => ⟨t.css_write out, t.css_eq, ?_⟩,
    fun s parent out => ⟨s.css_write parent out, s.css_eq parent, ?_⟩⟩
  · rw [Style.nodes, Style.inner_eq_flatMap, Style.children]
  · exact flatMap_rulesOf _ t.nodes
  · exact flatMap_rulesOf _ s.nodes

end NestedStyles

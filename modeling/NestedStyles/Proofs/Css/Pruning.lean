import NestedStyles.Proofs.Css.Flattening

/-!
# Styles without declarations

A style is hollow if nothing in it declares anything, at any depth. What is left of a style without
the hollow styles in it are the other nodes, each pruned in its turn (`Style.inner_pruned`), with
the declarations they had. The nodes that are gone had no rules, so the rules stay what they were
(`hollow_unseen`).
-/

namespace NestedStyles

/-- The same place with something else in it. -/
def Located.map (f : α → β) (place : Located α) : Located β := ⟨place.path, f place.content⟩

theorem Located.map_under (f : α → β) (key : String) (place : Located α) :
    (place.under key).map f = (place.map f).under key := rfl

/-! ## Hollow styles -/

namespace Style

/-- No node of the style has a declaration. -/
def Hollow (s : Style) : Prop := ∀ node ∈ s.nodes, node.content.declarations = []

instance : DecidablePred Hollow := fun s =>
  inferInstanceAs (Decidable (∀ node ∈ s.nodes, node.content.declarations = []))

/-- A style is hollow if neither it nor a style inside declares anything. -/
theorem hollow_iff {s : Style} :
    s.Hollow ↔ s.declarations = [] ∧ ∀ node ∈ s.inner, node.content.declarations = [] := by
  rw [Hollow, nodes, List.forall_mem_cons]

@[simp] theorem hollow_empty : Hollow empty := by
  rw [hollow_iff]
  exact ⟨rfl, fun _ hnode => absurd hnode List.not_mem_nil⟩

@[simp] theorem not_hollow_declare {name : String} {value : Value} {rest : Style} :
    ¬ (declare name value rest).Hollow := by
  intro h
  exact List.cons_ne_nil _ _ (hollow_iff.mp h).1

@[simp] theorem hollow_nest {fragment : String} {child rest : Style} :
    (nest fragment child rest).Hollow ↔ child.Hollow ∧ rest.Hollow := by
  rw [hollow_iff, inner, List.forall_mem_append, List.forall_mem_map, hollow_iff (s := rest)]
  exact and_left_comm

/-- Everything inside a hollow style is hollow. -/
theorem Hollow.inner {s : Style} (h : s.Hollow) : ∀ node ∈ s.inner, node.content.Hollow := by
  induction s with
  | empty => exact fun _ hnode => absurd hnode List.not_mem_nil
  | declare name value rest => exact absurd h not_hollow_declare
  | nest fragment child rest ihChild ihRest =>
    obtain ⟨hchild, hrest⟩ := hollow_nest.mp h
    intro node hnode
    rcases List.mem_append.mp hnode with hnode | hnode
    · obtain ⟨below, hbelow, rfl⟩ := List.mem_map.mp hnode
      rcases List.mem_cons.mp hbelow with rfl | hbelow
      · exact hchild
      · exact ihChild hchild below hbelow
    · exact ihRest hrest node hnode

/-- There is nothing but hollow styles in a hollow style. -/
theorem Hollow.nodes {s : Style} (h : s.Hollow) : ∀ node ∈ s.nodes, node.content.Hollow :=
  List.forall_mem_cons.mpr ⟨h, h.inner⟩

/-! ## Pruning -/

/-- A style without the hollow styles nested in it, at every depth. -/
def pruned : Style → Style
  | empty => empty
  | declare name value rest => declare name value rest.pruned
  | nest fragment child rest =>
    if child.Hollow then rest.pruned else nest fragment child.pruned rest.pruned

@[simp] theorem declarations_pruned (s : Style) : s.pruned.declarations = s.declarations := by
  induction s with
  | empty => rfl
  | declare name value rest ih => rw [pruned, declarations, declarations, ih]
  | nest fragment child rest _ ih =>
    rw [pruned, declarations]
    split
    · exact ih
    · exact ih

/-- Pruning keeps the declarations, and the nested styles that are not hollow, pruned themselves. -/
theorem entries_pruned (s : Style) :
    s.pruned.entries = s.entries.filterMap fun entry =>
      match entry.2 with
      | .value _ => some entry
      | .style child => if child.Hollow then none else some (entry.1, .style child.pruned) := by
  induction s with
  | empty => rfl
  | declare name value rest ih => simp [pruned, entries, ih]
  | nest fragment child rest _ ih =>
    by_cases h : child.Hollow
    · simp [pruned, entries, h, ih]
    · simp [pruned, entries, h, ih]

end Style

/-- The nodes that are not hollow, in the order and under the keys they have, each pruned. -/
def kept (nodes : List (Located Style)) : List (Located Style) :=
  nodes.filterMap fun node => if node.content.Hollow then none else some (node.map Style.pruned)

section
variable {nodes : List (Located Style)} {node : Located Style}

theorem kept_append (nodes nodes' : List (Located Style)) :
    kept (nodes ++ nodes') = kept nodes ++ kept nodes' := List.filterMap_append

theorem kept_cons (h : ¬ node.content.Hollow) :
    kept (node :: nodes) = node.map Style.pruned :: kept nodes :=
  List.filterMap_cons_some (if_neg h)

theorem kept_eq_nil (h : ∀ node ∈ nodes, node.content.Hollow) : kept nodes = [] :=
  List.filterMap_eq_nil_iff.mpr fun node hnode => if_pos (h node hnode)

theorem kept_map_under (nodes : List (Located Style)) (key : String) :
    kept (nodes.map (.under key)) = (kept nodes).map (.under key) := by
  rw [kept, kept, List.filterMap_map, List.map_filterMap]
  congr 1
  funext node
  rw [Function.comp_apply, Located.content_under, Located.map_under]
  split <;> rfl

/-- What is kept was there before, and was not hollow. -/
theorem exists_of_mem_kept (h : node ∈ kept nodes) :
    ∃ before ∈ nodes, ¬ before.content.Hollow ∧ before.map Style.pruned = node := by
  obtain ⟨before, hbefore, h⟩ := List.mem_filterMap.mp h
  split at h
  case isTrue => exact nomatch h
  case isFalse hhollow => exact ⟨before, hbefore, hhollow, Option.some.inj h⟩

/-- A node that goes has no rule, and one that stays has the rule it had. -/
theorem rulesOf_kept (selector : List String → String) (nodes : List (Located Style)) :
    rulesOf selector (kept nodes) = rulesOf selector nodes := by
  induction nodes with
  | nil => rfl
  | cons node nodes ih =>
    rw [← List.singleton_append, kept_append, rulesOf_append, rulesOf_append, ih]
    congr 1
    by_cases h : node.content.Hollow
    · have hnone : node.content.declarations = [] := (Style.hollow_iff.mp h).1
      rw [kept_eq_nil (by simpa using h)]
      simp [rulesOf, hnone]
    · rw [kept_cons h]
      simp [kept, rulesOf, Located.map]

theorem rulesOf_eq_nil_iff {selector : List String → String} :
    rulesOf selector nodes = [] ↔ ∀ node ∈ nodes, node.content.declarations = [] := by
  simp [rulesOf]

end

namespace Style

/-- The styles inside of a pruned style are those that are not hollow, each pruned. -/
theorem inner_pruned (s : Style) : s.pruned.inner = kept s.inner := by
  induction s with
  | empty => rfl
  | declare name value rest ih => exact ih
  | nest fragment child rest ihChild ihRest =>
    rw [pruned, inner, kept_append, kept_map_under, ← ihRest]
    split
    case isTrue h =>
      rw [kept_eq_nil (show ∀ node ∈ ⟨[], child⟩ :: child.inner, _ from h.nodes)]
      rfl
    case isFalse h =>
      rw [kept_cons h, ← ihChild]
      rfl

theorem nodes_pruned {s : Style} (h : ¬ s.Hollow) : s.pruned.nodes = kept s.nodes := by
  rw [nodes, nodes, kept_cons h, inner_pruned]
  rfl

theorem rules_pruned (s : Style) (parent : Option String) :
    s.pruned.rules parent = s.rules parent := by
  rw [rules, rules, rulesOf_nodes, rulesOf_nodes, inner_pruned, rulesOf_kept]
  simp [rulesOf]

/-- A style gives no rules exactly if it is hollow. -/
theorem rules_eq_nil_iff (s : Style) (parent : Option String) :
    s.rules parent = [] ↔ s.Hollow := rulesOf_eq_nil_iff

theorem hollow_pruned {s : Style} : s.pruned.Hollow ↔ s.Hollow := by
  rw [← rules_eq_nil_iff _ none, rules_pruned, rules_eq_nil_iff]

end Style

/-- Nothing hollow is left. -/
theorem not_hollow_of_mem_kept {nodes : List (Located Style)} {node : Located Style}
    (h : node ∈ kept nodes) : ¬ node.content.Hollow := by
  obtain ⟨before, -, hbefore, rfl⟩ := exists_of_mem_kept h
  exact mt Style.hollow_pruned.mp hbefore

namespace Sheet

/-- A sheet without its hollow groups and without what is hollow in the others. -/
def pruned (t : Sheet) : Sheet :=
  ⟨t.groups.filterMap fun group =>
    if group.2.Hollow then none else some (group.1, group.2.pruned)⟩

theorem nodes_pruned (t : Sheet) : t.pruned.nodes = kept t.nodes := by
  obtain ⟨groups⟩ := t
  induction groups with
  | nil => rfl
  | cons group groups ih =>
    rw [nodes_cons, kept_append, kept_map_under]
    by_cases h : group.2.Hollow
    · have hpruned : pruned ⟨group :: groups⟩ = pruned ⟨groups⟩ :=
        congrArg Sheet.mk (List.filterMap_cons_none (if_pos h))
      rw [hpruned, kept_eq_nil h.nodes, ih]
      rfl
    · have hpruned : pruned ⟨group :: groups⟩ =
          ⟨(group.1, group.2.pruned) :: (pruned ⟨groups⟩).groups⟩ :=
        congrArg Sheet.mk (List.filterMap_cons_some (if_neg h))
      rw [hpruned, nodes_cons, Style.nodes_pruned h, ih]

theorem rules_pruned (t : Sheet) : t.pruned.rules = t.rules := by
  rw [rules, nodes_pruned, rulesOf_kept, rules]

end Sheet

/-! ## The text of rules -/

theorem Rule.text_ne_empty (rule : Rule) : rule.text ≠ "" := by
  intro h
  simp [Rule.text] at h

theorem join_text_eq_empty_iff {rules : List Rule} :
    String.join (rules.map Rule.text) = "" ↔ rules = [] := by
  cases rules with
  | nil => simp
  | cons rule rules => simp [rule.text_ne_empty]

/-- Taking out, at every depth, the nested styles and the groups that declare nothing anywhere
leaves the text what it was, and nothing hollow is left to take out. The text is empty just for what
declares nothing anywhere, whatever the keys and the values are. -/
theorem hollow_unseen :
    (∀ (s : Style) (parent : Option String),
      s.pruned.entries = (s.entries.filterMap fun entry =>
        match entry.2 with
        | .value _ => some entry
        | .style child => if child.Hollow then none else some (entry.1, .style child.pruned)) ∧
      (∀ node ∈ s.pruned.inner, ¬ node.content.Hollow) ∧
      s.pruned.css parent = s.css parent ∧
      (s.css parent = "" ↔ ∀ node ∈ s.nodes, node.content.declarations = [])) ∧
    ∀ t : Sheet,
      t.pruned.groups = (t.groups.filterMap fun group =>
        if group.2.Hollow then none else some (group.1, group.2.pruned)) ∧
      (∀ node ∈ t.pruned.nodes, ¬ node.content.Hollow) ∧
      t.pruned.css = t.css ∧
      (t.css = "" ↔ ∀ node ∈ t.nodes, node.content.declarations = []) := by
  refine ⟨fun s parent => ⟨s.entries_pruned, fun node hnode => ?_, ?_, ?_⟩,
    fun t => ⟨rfl, fun node hnode => ?_, ?_, ?_⟩⟩
  · rw [Style.inner_pruned] at hnode
    exact not_hollow_of_mem_kept hnode
  · rw [Style.css_eq, Style.css_eq, Style.rules_pruned]
  · rw [Style.css_eq, join_text_eq_empty_iff, Style.rules_eq_nil_iff, Style.Hollow]
  · rw [Sheet.nodes_pruned] at hnode
    exact not_hollow_of_mem_kept hnode
  · rw [Sheet.css_eq, Sheet.css_eq, Sheet.rules_pruned]
  · rw [Sheet.css_eq, join_text_eq_empty_iff, Sheet.rules, rulesOf_eq_nil_iff]

end NestedStyles

import NestedStyles.Css.Output
import NestedStyles.Proofs.Style.Nodes

/-!
# Calls open while writing

To write a style is to write its own rule and then each style nested in it by a call of the same
function. `Style.writeWithin` does so with a limit on the calls that are open at once, and gives up
where one more is needed. It writes the same as `Style.write` where no style lies deeper than the
limit, and gives up everywhere else (`Style.writeWithin_eq_some_iff`).
-/

namespace NestedStyles

/-- A fold whose steps succeed where the elements are as they have to be. -/
theorem foldlM_eq_some_iff {f : β → α → Option β} {p : α → Prop} {g : β → α → β}
    (h : ∀ b a b', f b a = some b' ↔ p a ∧ b' = g b a) {l : List α} {b b' : β} :
    l.foldlM f b = some b' ↔ (∀ a ∈ l, p a) ∧ b' = l.foldl g b := by
  induction l generalizing b with
  | nil => simp [eq_comm]
  | cons a l ih =>
    rw [List.foldlM_cons, List.foldl_cons, List.forall_mem_cons]
    refine Option.bind_eq_some_iff.trans ?_
    constructor
    · rintro ⟨_, ha, hl⟩
      obtain ⟨hp, rfl⟩ := (h _ _ _).mp ha
      obtain ⟨hall, rfl⟩ := ih.mp hl
      exact ⟨⟨hp, hall⟩, rfl⟩
    · rintro ⟨⟨hp, hall⟩, rfl⟩
      exact ⟨_, (h _ _ _).mpr ⟨hp, rfl⟩, ih.mpr ⟨hall, rfl⟩⟩

namespace Style

/-- The style and what is nested in it take up no more than so many levels. -/
def Shallow (levels : Nat) (s : Style) : Prop := ∀ node ∈ s.nodes, node.path.length < levels

theorem not_shallow_zero (s : Style) : ¬s.Shallow 0 :=
  fun h => Nat.not_lt_zero _ (h ⟨[], s⟩ List.mem_cons_self)

/-- A style has one level more than its nested styles. -/
theorem shallow_succ_iff {levels : Nat} {s : Style} :
    s.Shallow (levels + 1) ↔ ∀ child ∈ s.children, child.2.Shallow levels := by
  rw [Shallow, nodes, List.forall_mem_cons, inner_eq_flatMap]
  refine (and_iff_right (Nat.zero_lt_succ levels)).trans ?_
  constructor
  · intro h child hchild node hnode
    exact Nat.lt_of_succ_lt_succ
      (h _ (List.mem_flatMap.mpr ⟨child, hchild, List.mem_map_of_mem hnode⟩))
  · intro h node hnode
    obtain ⟨child, hchild, hmem⟩ := List.mem_flatMap.mp hnode
    obtain ⟨inside, hinside, rfl⟩ := List.mem_map.mp hmem
    exact Nat.succ_lt_succ (h child hchild inside hinside)

/-- Append the rules of a style, with `calls` calls for it and the styles in it at most open at
once. -/
def writeWithin : Nat → Style → Option String → Output → Option Output
  | 0, _, _, _ => none
  | calls + 1, s, parent, out =>
    s.children.foldlM
      (fun out child => child.2.writeWithin calls (some (Selector.compose child.1 parent)) out)
      (out.writeRule ⟨parent.getD "", s.declarations⟩)

theorem writeNested_eq_foldl (s : Style) (parent : Option String) (out : Output) :
    s.writeNested parent out = s.children.foldl
      (fun out child => child.2.write (some (Selector.compose child.1 parent)) out) out := by
  induction s generalizing out with
  | empty => rfl
  | declare name value rest ih => rw [writeNested, ih, children_declare]
  | nest fragment inner rest _ ih =>
    rw [writeNested, ih, children_nest, List.foldl_cons]
    rfl

/-- Calls suffice exactly if the style is nested less deep than there are calls, and then nothing
else is written. -/
theorem writeWithin_eq_some_iff {calls : Nat} {s : Style} {parent : Option String}
    {out out' : Output} :
    s.writeWithin calls parent out = some out' ↔ s.Shallow calls ∧ out' = s.write parent out := by
  induction calls generalizing s parent out out' with
  | zero => simp [writeWithin, not_shallow_zero]
  | succ calls ih =>
    rw [writeWithin, shallow_succ_iff, write, writeNested_eq_foldl]
    apply foldlM_eq_some_iff
    intro out child out'
    exact ih

end Style

namespace Sheet

/-- Append the rules of every group with no more than `calls` calls open at once. -/
def writeWithin (calls : Nat) (t : Sheet) (out : Output) : Option Output := do
  let written ← t.groups.foldlM
    (fun out group => group.2.writeWithin calls (some group.1) out) out
  some { written with
    log := written.log ++ [.flattened t.size (written.css.utf8ByteSize - out.css.utf8ByteSize)] }

theorem forall_shallow_iff {levels : Nat} {t : Sheet} :
    (∀ group ∈ t.groups, group.2.Shallow levels) ↔ ∀ node ∈ t.nodes, node.path.length ≤ levels := by
  constructor
  · intro h node hnode
    obtain ⟨group, hgroup, hmem⟩ := List.mem_flatMap.mp hnode
    obtain ⟨inside, hinside, rfl⟩ := List.mem_map.mp hmem
    exact h group hgroup inside hinside
  · intro h group hgroup node hnode
    exact h _ (List.mem_flatMap.mpr ⟨group, hgroup, List.mem_map_of_mem hnode⟩)

/-- A sheet is written with as many calls open at once as its styles lie deep, and with no fewer. -/
theorem writeWithin_eq_some_iff {calls : Nat} {t : Sheet} {out out' : Output} :
    t.writeWithin calls out = some out' ↔
      (∀ node ∈ t.nodes, node.path.length ≤ calls) ∧ out' = t.write out := by
  have hgroups {written : Output} :
      t.groups.foldlM (fun out group => group.2.writeWithin calls (some group.1) out) out =
          some written ↔
        (∀ group ∈ t.groups, group.2.Shallow calls) ∧
          written = t.groups.foldl (fun out group => group.2.write (some group.1) out) out := by
    apply foldlM_eq_some_iff
    intro out group out'
    exact Style.writeWithin_eq_some_iff
  rw [← forall_shallow_iff]
  refine Option.bind_eq_some_iff.trans ?_
  constructor
  · rintro ⟨written, hwritten, hout⟩
    obtain ⟨hshallow, rfl⟩ := hgroups.mp hwritten
    exact ⟨hshallow, (Option.some.inj hout).symm⟩
  · rintro ⟨hshallow, rfl⟩
    exact ⟨_, hgroups.mpr ⟨hshallow, rfl⟩, rfl⟩

end Sheet
end NestedStyles

import NestedStyles.Proofs.Keyed.Writes
import NestedStyles.Proofs.Sheet.UniqueKeys
import NestedStyles.Proofs.Style.Nodes

/-!
# Places in a style

Keys lead from a style, or from a sheet, to a style that is nested in it (`Style.styleAt?`), and
inserting at each level puts another one in its place (`Style.replaceAt`). Where keys are distinct
the places are those of the nodes (`Sheet.mem_nodes_iff`). A `Style.Gap` is what is around such a
place: a style with a place in it is its gaps filled, and replacing fills them again
(`Style.exists_gaps`).
-/

namespace NestedStyles

theorem Located.cons_mem_map_under {places : List (Located α)} {key key' : String}
    {path : List String} {content : α} :
    ⟨key' :: path, content⟩ ∈ places.map (Located.under key) ↔
      key = key' ∧ ⟨path, content⟩ ∈ places := by
  rw [List.mem_map]
  constructor
  · rintro ⟨place, hplace, heq⟩
    cases heq
    exact ⟨rfl, hplace⟩
  · rintro ⟨rfl, hplace⟩
    exact ⟨_, hplace, rfl⟩

namespace Style

/-- The style that keys lead to, each of them the key of a nested style. -/
def styleAt? : Style → List String → Option Style
  | s, [] => some s
  | s, key :: path =>
    match s.get? key with
    | some (.style inner) => inner.styleAt? path
    | _ => none

/-- Put another style where keys lead to, by inserting at each level. -/
def replaceAt : Style → List String → Style → Style
  | _, [], new => new
  | s, key :: path, new =>
    match s.get? key with
    | some (.style inner) => s.insert key (.style (inner.replaceAt path new))
    | _ => s

theorem styleAt?_cons {s old : Style} {key : String} {path : List String} :
    s.styleAt? (key :: path) = some old ↔
      ∃ inner, s.get? key = some (.style inner) ∧ inner.styleAt? path = some old := by
  rw [styleAt?]
  split
  · next inner hget => simp [hget]
  · next hget =>
    refine iff_of_false nofun ?_
    rintro ⟨inner, hinner, -⟩
    exact hget inner hinner

theorem replaceAt_cons {s inner : Style} {key : String} (h : s.get? key = some (.style inner))
    (path : List String) (new : Style) :
    s.replaceAt (key :: path) new = s.insert key (.style (inner.replaceAt path new)) := by
  rw [replaceAt, h]

/-! ## Nodes by their paths -/

theorem mem_children {s inner : Style} {key : String} :
    (key, inner) ∈ s.children ↔ (key, .style inner) ∈ s.entries := by
  induction s with
  | empty => simp [entries]
  | declare name value rest ih => simp [entries, ih]
  | nest fragment child rest _ ih => simp [entries, ih]

theorem nil_mem_nodes_iff {s old : Style} : ⟨[], old⟩ ∈ s.nodes ↔ s = old := by
  rw [nodes, List.mem_cons, inner_eq_flatMap]
  simp [Located.under, eq_comm]

/-- A path to a style inside leads through a nested style. -/
theorem cons_mem_nodes_iff {s old : Style} {key : String} {path : List String} :
    ⟨key :: path, old⟩ ∈ s.nodes ↔
      ∃ inner, (key, inner) ∈ s.children ∧ ⟨path, old⟩ ∈ inner.nodes := by
  have hne : (⟨key :: path, old⟩ : Located Style) ≠ ⟨[], s⟩ := by simp
  rw [nodes, List.mem_cons, inner_eq_flatMap, or_iff_right hne, List.mem_flatMap]
  simp only [Located.cons_mem_map_under]
  constructor
  · rintro ⟨⟨_, inner⟩, hchild, rfl, hnode⟩
    exact ⟨inner, hchild, hnode⟩
  · rintro ⟨inner, hchild, hnode⟩
    exact ⟨(key, inner), hchild, rfl, hnode⟩

/-- What holds of the key of every child holds of every key on the way to a node. -/
theorem forall_mem_path {p : String → Prop} {s : Style}
    (h : ∀ node ∈ s.nodes, ∀ child ∈ node.content.children, p child.1) :
    ∀ node ∈ s.nodes, ∀ key ∈ node.path, p key := by
  rintro ⟨path, old⟩ hnode
  induction path generalizing s with
  | nil => exact List.forall_mem_nil _
  | cons key path ih =>
    obtain ⟨inner, hchild, hinner⟩ := cons_mem_nodes_iff.mp hnode
    have hkey : p key := h ⟨[], s⟩ List.mem_cons_self _ hchild
    have hbelow : ∀ node ∈ inner.nodes, ∀ child ∈ node.content.children, p child.1 := by
      rintro ⟨path', content⟩ hnode'
      exact h ⟨key :: path', content⟩ (cons_mem_nodes_iff.mpr ⟨inner, hchild, hnode'⟩)
    exact List.forall_mem_cons.mpr ⟨hkey, ih hbelow hinner⟩

/-- Under distinct keys every path leads to one style, which is the one that is found by it. -/
theorem mem_nodes_iff {s : Style} (h : s.UniqueKeys) {path : List String} {old : Style} :
    ⟨path, old⟩ ∈ s.nodes ↔ s.styleAt? path = some old := by
  induction path generalizing s with
  | nil => rw [nil_mem_nodes_iff, styleAt?, Option.some.injEq]
  | cons key path ih =>
    obtain ⟨hnodup, hentries⟩ := uniqueKeys_iff.mp h
    rw [cons_mem_nodes_iff, styleAt?_cons]
    refine exists_congr fun inner => ?_
    rw [mem_children, get?, Keyed.find?_eq_some_iff hnodup]
    exact and_congr_right fun hmem => ih (hentries _ hmem)

/-! ## Gaps -/

/-- What is around a nested style among the entries of the style that it is nested in. -/
structure Gap where
  front : Keyed String Entry
  fragment : String
  back : Keyed String Entry

/-- Put a style into a gap. -/
def Gap.fill (gap : Gap) (s : Style) : Style :=
  ofEntries (gap.front ++ (gap.fragment, .style s) :: gap.back)

/-- Put a style into the innermost of gaps, each in the next one. -/
def fillAll (gaps : List Gap) (s : Style) : Style := gaps.foldr Gap.fill s

/-- A nested style stands in a gap, and to write another one under its key is to put that into the
gap. -/
theorem exists_gap {s inner : Style} {key : String} (h : s.get? key = some (.style inner)) :
    ∃ gap : Gap, gap.fragment = key ∧ gap.fill inner = s ∧
      ∀ new : Style, s.insert key (.style new) = gap.fill new := by
  obtain ⟨front, back, hfront, hentries⟩ := Keyed.find?_eq_some_iff_append.mp h
  refine ⟨⟨front, key, back⟩, rfl, ?_, fun new => ?_⟩
  · rw [Gap.fill, ← hentries, ofEntries_entries]
  · rw [Style.insert, hentries, Keyed.insert_append_cons hfront, Gap.fill]

/-- A style with a place in it is filled gaps, and replacing fills them with another style. -/
theorem exists_gaps {s old : Style} {path : List String} (h : s.styleAt? path = some old) :
    ∃ gaps : List Gap, gaps.map Gap.fragment = path ∧ fillAll gaps old = s ∧
      ∀ new : Style, s.replaceAt path new = fillAll gaps new := by
  induction path generalizing s with
  | nil =>
    obtain rfl := Option.some.inj h
    exact ⟨[], rfl, rfl, fun _ => rfl⟩
  | cons key path ih =>
    obtain ⟨inner, hget, hinner⟩ := styleAt?_cons.mp h
    obtain ⟨gap, rfl, hfill, hinsert⟩ := exists_gap hget
    obtain ⟨gaps, rfl, rfl, hreplace⟩ := ih hinner
    refine ⟨gap :: gaps, rfl, hfill, fun new => ?_⟩
    rw [replaceAt_cons hget, hreplace, hinsert]
    rfl

end Style

namespace Sheet

/-- The style that keys lead to, the first of them a selector of the sheet. -/
def styleAt? (t : Sheet) : List String → Option Style
  | [] => none
  | selector :: path => (t.get? selector).bind fun s => s.styleAt? path

/-- Put another style where keys lead to, by inserting at each level. -/
def replaceAt (t : Sheet) : List String → Style → Sheet
  | [], _ => t
  | selector :: path, new =>
    match t.get? selector with
    | some s => t.insert selector (s.replaceAt path new)
    | none => t

theorem styleAt?_cons {t : Sheet} {old : Style} {selector : String} {path : List String} :
    t.styleAt? (selector :: path) = some old ↔
      ∃ s, t.get? selector = some s ∧ s.styleAt? path = some old := Option.bind_eq_some_iff

theorem replaceAt_cons {t : Sheet} {s : Style} {selector : String} (h : t.get? selector = some s)
    (path : List String) (new : Style) :
    t.replaceAt (selector :: path) new = t.insert selector (s.replaceAt path new) := by
  rw [replaceAt, h]

theorem mem_nodes_iff {t : Sheet} (h : t.UniqueKeys) {path : List String} {old : Style} :
    ⟨path, old⟩ ∈ t.nodes ↔ t.styleAt? path = some old := by
  rw [nodes, List.mem_flatMap]
  cases path with
  | nil => simp [styleAt?, Located.under]
  | cons selector path =>
    simp only [Located.cons_mem_map_under]
    constructor
    · rintro ⟨⟨_, s⟩, hgroup, rfl, hnode⟩
      refine styleAt?_cons.mpr ⟨s, (Keyed.find?_eq_some_iff h.nodup).mpr hgroup, ?_⟩
      exact (Style.mem_nodes_iff (h.styles _ hgroup)).mp hnode
    · intro hstyle
      obtain ⟨s, hget, hstyle⟩ := styleAt?_cons.mp hstyle
      have hgroup := Keyed.mem_of_find?_eq_some hget
      exact ⟨_, hgroup, rfl, (Style.mem_nodes_iff (h.styles _ hgroup)).mpr hstyle⟩

/-- What is around a style in a sheet. -/
structure Gap where
  front : Keyed String Style
  selector : String
  inner : List Style.Gap
  back : Keyed String Style

namespace Gap

/-- Put a style into a gap. -/
def fill (gap : Gap) (s : Style) : Sheet :=
  ⟨gap.front ++ (gap.selector, Style.fillAll gap.inner s) :: gap.back⟩

/-- The keys that lead to a gap. -/
def path (gap : Gap) : List String := gap.selector :: gap.inner.map Style.Gap.fragment

end Gap

/-- A sheet with a place in it is a gap filled, and replacing fills it with another style. -/
theorem exists_gap {t : Sheet} {old : Style} {path : List String} (h : t.styleAt? path = some old) :
    ∃ gap : Gap, gap.path = path ∧ gap.fill old = t ∧
      ∀ new : Style, t.replaceAt path new = gap.fill new := by
  cases path with
  | nil => cases h
  | cons selector path =>
    obtain ⟨s, hget, hstyle⟩ := styleAt?_cons.mp h
    obtain ⟨front, back, hfront, hgroups⟩ := Keyed.find?_eq_some_iff_append.mp hget
    obtain ⟨gaps, rfl, rfl, hreplace⟩ := Style.exists_gaps hstyle
    refine ⟨⟨front, selector, gaps, back⟩, rfl, ?_, fun new => ?_⟩
    · rw [Gap.fill, ← hgroups]
    · rw [replaceAt_cons hget, hreplace, insert, hgroups, Keyed.insert_append_cons hfront, Gap.fill]

end Sheet
end NestedStyles

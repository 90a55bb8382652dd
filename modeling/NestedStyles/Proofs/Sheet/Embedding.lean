import NestedStyles.Proofs.Json.Writing
import NestedStyles.Proofs.Sheet.UniqueKeys
import NestedStyles.Proofs.Style.Nodes

/-!
# Sheets as values

A sheet stands for an object of objects with the same keys in the same order, in which numbers are
kept as `number` says. Such a value is read as the sheet that it stands for, if no number changes
on the way (`Sheet.ofJson_toJson`). It repeats no key where the sheet repeats none, and it opens
one bracket more than the styles of the sheet are nested deep.
-/

namespace NestedStyles

namespace Style

/-- The values that a style and the styles in it declare. -/
def values (s : Style) : List Value :=
  s.nodes.flatMap fun node => node.content.declarations.map Prod.snd

@[simp] theorem values_empty : values empty = [] := rfl

@[simp] theorem values_declare (name : String) (value : Value) (rest : Style) :
    values (declare name value rest) = value :: values rest := rfl

@[simp] theorem mem_values_nest {fragment : String} {inner rest : Style} {value : Value} :
    value ∈ values (nest fragment inner rest) ↔ value ∈ values inner ∨ value ∈ values rest := by
  simp only [values, nodes, Style.inner, declarations, List.flatMap_cons, List.flatMap_append,
    List.flatMap_map, Located.content_under, List.mem_append]
  exact or_left_comm

end Style

/-- The values that the styles of a sheet declare. -/
def Sheet.values (t : Sheet) : List Value := t.groups.flatMap fun group => group.2.values

section
variable (number : Binary64 → Json.Number)

/-- The JSON value of a declared value. -/
def Value.toJson : Value → Json
  | .text s => .string s
  | .number x => .number (number x)

/-- The members of the object that a style stands for. -/
def Style.toMembers : Style → List (String × Json)
  | empty => []
  | declare name value rest => (name, value.toJson number) :: rest.toMembers
  | nest fragment inner rest => (fragment, .object inner.toMembers) :: rest.toMembers

/-- A sheet as a JSON value, with its numbers as they are told to be written. -/
def Sheet.toJson (t : Sheet) : Json :=
  .object (t.groups.map fun group => (group.1, .object (group.2.toMembers number)))

end

/-- No number of the value changes where it is kept. -/
def Value.Kept (number : Binary64 → Json.Number) : Value → Prop
  | .text _ => True
  | .number x => (number x).toBinary64 = x

section
variable {number : Binary64 → Json.Number}

/-! ## Reading -/

theorem Entry.ofJson_toJson {value : Value} (h : value.Kept number) (key : String)
    (path : List String) :
    Entry.ofJson key (value.toJson number) path = .ok (.value value, path) := by
  cases value with
  | text s => rfl
  | number x => rw [Value.toJson, Entry.ofJson, show (number x).toBinary64 = x from h]

/-- A style is read back from its members, if its numbers are kept. -/
theorem Style.ofMembers_toMembers {s : Style} (h : ∀ value ∈ s.values, value.Kept number)
    (path : List String) : Style.ofMembers (s.toMembers number) path = .ok (s, path) := by
  induction s generalizing path with
  | empty => rfl
  | declare name value rest ih =>
    obtain ⟨hvalue, hrest⟩ := List.forall_mem_cons.mp h
    simp only [toMembers, ofMembers, Entry.ofJson_toJson hvalue, ih hrest, bind, Except.bind]
  | nest fragment inner rest ihInner ihRest =>
    have hinner := ihInner (fun v hv => h v (mem_values_nest.mpr (.inl hv))) (path ++ [fragment])
    have hrest := ihRest (fun v hv => h v (mem_values_nest.mpr (.inr hv))) path
    simp only [toMembers, ofMembers, Entry.ofJson, hinner, bind, Except.bind, List.dropLast_concat,
      hrest]

theorem Sheet.groupsOfMembers_toJson {groups : Keyed String Style}
    (h : ∀ group ∈ groups, ∀ value ∈ group.2.values, value.Kept number) :
    groupsOfMembers (groups.map fun group => (group.1, .object (group.2.toMembers number))) =
      .ok groups := by
  induction groups with
  | nil => rfl
  | cons group groups ih =>
    obtain ⟨hgroup, hgroups⟩ := List.forall_mem_cons.mp h
    simp only [List.map_cons, groupsOfMembers, Style.ofMembers_toMembers hgroup, ih hgroups, bind,
      Except.bind]

/-- A sheet is read back from its JSON value, if its numbers are kept. -/
theorem Sheet.ofJson_toJson {t : Sheet} (h : ∀ value ∈ t.values, value.Kept number) :
    ofJson (t.toJson number) = .ok t := by
  rw [toJson, ofJson, groupsOfMembers_toJson fun group hgroup value hvalue =>
    h value (List.mem_flatMap.mpr ⟨group, hgroup, hvalue⟩)]
  rfl

/-! ## Keys -/

theorem Style.keys_toMembers (s : Style) : Keyed.keys (s.toMembers number) = s.keys := by
  induction s with
  | empty => rfl
  | declare name value rest ih => exact congrArg (name :: ·) ih
  | nest fragment inner rest _ ih => exact congrArg (fragment :: ·) ih

theorem Value.uniqueKeys_toJson (value : Value) : (value.toJson number).UniqueKeys := by
  cases value <;> trivial

theorem Style.UniqueKeys.toMembers {s : Style} (h : s.UniqueKeys) :
    (Keyed.keys (s.toMembers number)).Nodup ∧ Json.UniqueKeysMembers (s.toMembers number) := by
  refine ⟨(keys_toMembers s).symm ▸ h.nodup, ?_⟩
  induction s with
  | empty => trivial
  | declare name value rest ih => exact ⟨value.uniqueKeys_toJson, ih h.2⟩
  | nest fragment inner rest ihInner ihRest =>
    exact ⟨⟨(keys_toMembers inner).symm ▸ h.2.1.nodup, ihInner h.2.1⟩, ihRest h.2.2⟩

/-- Distinct keys stay distinct. -/
theorem Sheet.UniqueKeys.toJson {t : Sheet} (h : t.UniqueKeys) :
    (t.toJson number).UniqueKeys := by
  constructor
  · have hkeys : Keyed.keys (t.groups.map fun group =>
        (group.1, Json.object (group.2.toMembers number))) = t.groups.keys := by
      simp [Keyed.keys, Function.comp_def]
    exact hkeys.symm ▸ h.nodup
  · refine Json.uniqueKeysMembers_iff.mpr fun member hmember => ?_
    obtain ⟨group, hgroup, rfl⟩ := List.mem_map.mp hmember
    exact (h.styles group hgroup).toMembers

/-! ## Depth -/

theorem Value.depth_toJson (value : Value) : (value.toJson number).depth = 0 := by
  cases value <;> rfl

theorem Style.depth_toMembers_le {s : Style} {n : Nat}
    (h : ∀ node ∈ s.inner, node.path.length ≤ n) :
    Json.depthOfMembers (s.toMembers number) ≤ n := by
  induction s generalizing n with
  | empty => exact Nat.zero_le n
  | declare name value rest ih =>
    rw [toMembers, Json.depthOfMembers, value.depth_toJson]
    exact Nat.max_le.mpr ⟨Nat.zero_le n, ih h⟩
  | nest fragment inner rest ihInner ihRest =>
    obtain ⟨hinner, hrest⟩ := List.forall_mem_append.mp h
    obtain ⟨hself, hnodes⟩ := List.forall_mem_cons.mp (List.forall_mem_map.mp hinner)
    -- the nested style takes a bracket of its own, for which there is room
    obtain ⟨n, rfl⟩ := Nat.exists_eq_add_of_le' (show 1 ≤ n from hself)
    rw [toMembers, Json.depthOfMembers, Json.depth]
    refine Nat.max_le.mpr ⟨Nat.succ_le_succ (ihInner fun node hnode => ?_), ihRest hrest⟩
    exact Nat.le_of_succ_le_succ (hnodes node hnode)

/-- A sheet whose styles lie at most `n` keys deep is a value with at most `n + 1` objects open at
once. -/
theorem Sheet.depth_toJson_le {t : Sheet} {n : Nat} (h : ∀ node ∈ t.nodes, node.path.length ≤ n) :
    (t.toJson number).depth ≤ n + 1 := by
  refine Nat.succ_le_succ ?_
  obtain ⟨groups⟩ := t
  induction groups with
  | nil => exact Nat.zero_le n
  | cons group groups ih =>
    obtain ⟨hgroup, hgroups⟩ := List.forall_mem_append.mp h
    obtain ⟨hself, hnodes⟩ := List.forall_mem_cons.mp (List.forall_mem_map.mp hgroup)
    refine Nat.max_le.mpr ⟨?_, ih hgroups⟩
    obtain ⟨n, rfl⟩ := Nat.exists_eq_add_of_le' (show 1 ≤ n from hself)
    refine Nat.succ_le_succ (Style.depth_toMembers_le fun node hnode => ?_)
    exact Nat.le_of_succ_le_succ (hnodes node hnode)

end
end NestedStyles

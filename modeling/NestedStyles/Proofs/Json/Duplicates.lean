import NestedStyles.Proofs.Json.Merge
import NestedStyles.Proofs.Json.Soundness
import NestedStyles.Proofs.Keyed.Writes

/-!
# Repeated keys

`Json.Merged` says without merging what a document with repeated keys stands for: each key once,
where it first stands, over what stands under it last. There is one such value, and merging finds it
(`Json.merged_iff`). It is nested no deeper than the document, and it can be written where the
document can (`Json.exists_isSource_merge`).
-/

namespace NestedStyles

/-! ## Entries -/

namespace Keyed

section
variable {κ α β : Type}

theorem keys_map (f : α → β) (entries : Keyed κ α) :
    keys (entries.map fun entry => (entry.1, f entry.2)) = keys entries := by
  simp [keys, Function.comp_def]

/-- Entries are known from their keys in order and the values under them. -/
theorem eq_of_keys_eq {entries others : Keyed κ α} (hkeys : keys entries = keys others)
    (h : ∀ key value value', (key, value) ∈ entries → (key, value') ∈ others → value = value') :
    entries = others := by
  induction entries generalizing others with
  | nil => exact (List.map_eq_nil_iff.mp hkeys.symm).symm
  | cons entry entries ih =>
    cases others with
    | nil => cases hkeys
    | cons other others =>
      obtain ⟨key, value⟩ := entry
      obtain ⟨key', value'⟩ := other
      obtain ⟨rfl, hrest⟩ := List.cons.inj hkeys
      have hvalue : value = value' := h _ _ _ List.mem_cons_self List.mem_cons_self
      have hothers := ih hrest fun k v v' hv hv' =>
        h k v v' (List.mem_cons_of_mem _ hv) (List.mem_cons_of_mem _ hv')
      rw [hvalue, hothers]

end

variable {κ α β : Type} [DecidableEq κ]

/-- The value that stands last under a key. -/
def last? (key : κ) (entries : Keyed κ α) : Option α := find? key entries.reverse

theorem mem_of_last?_eq_some {key : κ} {value : α} {entries : Keyed κ α}
    (h : last? key entries = some value) : (key, value) ∈ entries :=
  List.mem_reverse.mp (mem_of_find?_eq_some h)

theorem find?_map (f : α → β) (key : κ) (entries : Keyed κ α) :
    find? key (entries.map fun entry => (entry.1, f entry.2)) = (find? key entries).map f := by
  induction entries with
  | nil => rfl
  | cons entry rest ih =>
    obtain ⟨k, v⟩ := entry
    by_cases h : k = key <;> simp [find?, h, ih]

theorem last?_map (f : α → β) (key : κ) (entries : Keyed κ α) :
    last? key (entries.map fun entry => (entry.1, f entry.2)) = (last? key entries).map f := by
  rw [last?, ← List.map_reverse, find?_map, last?]

/-- The keys of entries are those that were written, each at its first place. -/
theorem keys_ofList (pairs : List (κ × α)) : keys (ofList pairs) = (keys pairs).eraseDups := by
  have h : keys (ofList pairs) = keys [] ++ newKeys [] pairs := keys_insertAll [] pairs
  rw [h, newKeys]
  simp

/-- The value of an entry is the last one that was written under its key. -/
theorem mem_ofList_iff {pairs : List (κ × α)} {key : κ} {value : α} :
    (key, value) ∈ ofList pairs ↔ last? key pairs = some value := by
  rw [← find?_eq_some_iff (nodup_keys_ofList pairs)]
  have h := find?_insertAll [] pairs key
  rw [valueAfter, find?, Option.or_none] at h
  rw [last?, ← h]
  rfl

end Keyed

namespace Json

/-! ## Values inside of a value -/

/-- The values directly inside of a value. -/
def inside : Json → List Json
  | array elements => elements
  | object members => members.map Prod.snd
  | _ => []

mutual
/-- Induction from the values directly inside of a value to the value. -/
theorem induction_inside {motive : Json → Prop}
    (step : ∀ v : Json, (∀ w ∈ v.inside, motive w) → motive v) : ∀ v : Json, motive v
  | .null => step .null (List.forall_mem_nil _)
  | .boolean b => step (.boolean b) (List.forall_mem_nil _)
  | .number n => step (.number n) (List.forall_mem_nil _)
  | .string s => step (.string s) (List.forall_mem_nil _)
  | .array elements => step (.array elements) (induction_elements step elements)
  | .object members =>
    step (.object members) (List.forall_mem_map.mpr (induction_members step members))

theorem induction_elements {motive : Json → Prop}
    (step : ∀ v : Json, (∀ w ∈ v.inside, motive w) → motive v) :
    ∀ elements : List Json, ∀ element ∈ elements, motive element
  | [] => List.forall_mem_nil _
  | element :: rest =>
    List.forall_mem_cons.mpr ⟨induction_inside step element, induction_elements step rest⟩

theorem induction_members {motive : Json → Prop}
    (step : ∀ v : Json, (∀ w ∈ v.inside, motive w) → motive v) :
    ∀ members : List (String × Json), ∀ found ∈ members, motive found.2
  | [] => List.forall_mem_nil _
  | (_, v) :: rest =>
    List.forall_mem_cons.mpr ⟨induction_inside step v, induction_members step rest⟩
end

theorem mergeElements_eq_map (elements : List Json) :
    mergeElements elements = elements.map merge := by
  induction elements with
  | nil => rfl
  | cons element rest ih => rw [mergeElements, ih, List.map_cons]

theorem mergeMembers_eq_map (members : List (String × Json)) :
    mergeMembers members = members.map fun found => (found.1, found.2.merge) := by
  induction members with
  | nil => rfl
  | cons found rest ih => rw [mergeMembers, ih, List.map_cons]

/-- The members after merging: the last value under each key, merged. -/
theorem mem_merged_members_iff {members : List (String × Json)} {key : String} {w : Json} :
    (key, w) ∈ Keyed.ofList (mergeMembers members) ↔
      ∃ v, Keyed.last? key members = some v ∧ v.merge = w := by
  rw [Keyed.mem_ofList_iff, mergeMembers_eq_map, Keyed.last?_map, Option.map_eq_some_iff]

/-! ## What is merged -/

/-- The second value is the first one with each key of an object once, where it first stands there,
over what stands last under it. -/
inductive Merged : Json → Json → Prop
  | null : Merged null null
  | boolean (b : Bool) : Merged (boolean b) (boolean b)
  | number (n : Number) : Merged (number n) (number n)
  | string (s : String) : Merged (string s) (string s)
  | array {elements elements' : List Json} (h : List.Forall₂ Merged elements elements') :
      Merged (array elements) (array elements')
  | object {members members' : List (String × Json)}
      (hkeys : Keyed.keys members' = (Keyed.keys members).eraseDups)
      (h : ∀ key v v', Keyed.last? key members = some v → (key, v') ∈ members' → Merged v v') :
      Merged (object members) (object members')

/-- There is one merged value, and this is how it is found. -/
theorem merged_iff {d v : Json} : d.Merged v ↔ v = d.merge := by
  induction d using induction_inside generalizing v with
  | step d ih =>
    cases d with
    | null | boolean | number | string =>
      constructor
      · rintro ⟨⟩
        rfl
      · rintro rfl
        constructor
    | array elements =>
      constructor
      · rintro ⟨⟩
        rename_i elements' h
        have ih' : ∀ e ∈ elements, ∀ e', e.Merged e' ↔ e' = e.merge := fun e he e' => ih e he
        have hmerge : List.Forall₂ (fun e e' => e.merge = e') elements elements' :=
          ((List.forall₂_and_left _ _).mpr ⟨ih', h⟩).imp fun e e' found =>
            ((found.1 e').mp found.2).symm
        rw [← List.forall₂_map_left_iff, List.forall₂_eq_eq_eq] at hmerge
        rw [merge, mergeElements_eq_map, hmerge]
      · rintro rfl
        rw [merge, mergeElements_eq_map]
        refine .array (List.forall₂_map_right_iff.mpr (List.forall₂_same.mpr fun element h => ?_))
        exact (ih element h).mpr rfl
    | object members =>
      have hkeys : Keyed.keys (Keyed.ofList (mergeMembers members)) =
          (Keyed.keys members).eraseDups := by
        rw [Keyed.keys_ofList, mergeMembers_eq_map, Keyed.keys_map]
      have hinside {key : String} {u : Json} (hlast : Keyed.last? key members = some u) :
          u ∈ (object members).inside :=
        List.mem_map.mpr ⟨_, Keyed.mem_of_last?_eq_some hlast, rfl⟩
      constructor
      · rintro (_ | _ | _ | _ | _ | ⟨hkeys', h⟩)
        rename_i members'
        rw [merge]
        refine congrArg object (Keyed.eq_of_keys_eq (hkeys'.trans hkeys.symm) ?_)
        intro key w w' hw hw'
        obtain ⟨u, hlast, rfl⟩ := mem_merged_members_iff.mp hw'
        exact (ih u (hinside hlast)).mp (h key u w hlast hw)
      · rintro rfl
        rw [merge]
        refine .object hkeys fun key u w hlast hw => ?_
        obtain ⟨u', hlast', rfl⟩ := mem_merged_members_iff.mp hw
        cases hlast.symm.trans hlast'
        exact (ih u (hinside hlast)).mpr rfl

/-- What is inside of a merged value was inside before, where it was to be merged itself. -/
theorem exists_of_mem_inside_merge {d w : Json} (h : w ∈ d.merge.inside) :
    ∃ v ∈ d.inside, v.merge = w := by
  cases d with
  | null | boolean | number | string => cases h
  | array elements =>
    rw [merge, mergeElements_eq_map] at h
    exact List.mem_map.mp h
  | object members =>
    obtain ⟨⟨key, _⟩, hmem, rfl⟩ := List.mem_map.mp h
    obtain ⟨v, hlast, hv⟩ := mem_merged_members_iff.mp hmem
    exact ⟨v, List.mem_map.mpr ⟨_, Keyed.mem_of_last?_eq_some hlast, rfl⟩, hv⟩

/-! ## Depth -/

theorem depth_le_of_inside {v : Json} {n : Nat} (h : ∀ w ∈ v.inside, w.depth ≤ n) :
    v.depth ≤ n + 1 := by
  cases v with
  | null | boolean | number | string => exact Nat.zero_le _
  | array elements => exact Nat.succ_le_succ (depthOfElements_le h)
  | object members => exact Nat.succ_le_succ (depthOfMembers_le (List.forall_mem_map.mp h))

/-- A value is less deep than the one it is inside of. -/
theorem depth_lt_of_mem_inside {v w : Json} (h : w ∈ v.inside) : w.depth < v.depth := by
  cases v with
  | null | boolean | number | string => cases h
  | array elements =>
    refine Nat.lt_succ_of_le ?_
    induction elements with
    | nil => cases h
    | cons element rest ih =>
      rcases List.mem_cons.mp h with rfl | hrest
      · exact Nat.le_max_left ..
      · exact Nat.le_trans (ih hrest) (Nat.le_max_right ..)
  | object members =>
    refine Nat.lt_succ_of_le ?_
    induction members with
    | nil => cases h
    | cons found rest ih =>
      rcases List.mem_cons.mp h with rfl | hrest
      · exact Nat.le_max_left ..
      · exact Nat.le_trans (ih hrest) (Nat.le_max_right ..)

/-- Merging makes no value deeper, but may leave out a deep one. -/
theorem depth_merge_le (d : Json) : d.merge.depth ≤ d.depth := by
  induction d using induction_inside with
  | step d ih =>
    cases d with
    | null | boolean | number | string => exact Nat.le_refl _
    | array | object =>
      refine depth_le_of_inside fun w hw => ?_
      obtain ⟨v, hv, rfl⟩ := exists_of_mem_inside_merge hw
      exact Nat.le_trans (ih v hv) (Nat.le_of_lt_succ (depth_lt_of_mem_inside hv))

/-! ## Texts -/

theorem Listed.exists_text {items : List (List Char → Prop)} {inside : List Char}
    (h : Listed items inside) : ∀ item ∈ items, ∃ text, item text := by
  induction h with
  | nothing => exact List.forall_mem_nil _
  | last _ htext => exact List.forall_mem_singleton.mpr ⟨_, htext⟩
  | more _ htext _ _ ih => exact List.forall_mem_cons.mpr ⟨⟨_, htext⟩, ih⟩

section
variable {numeral : Number → List Char → Prop}

/-- A list can be written exactly if its elements can. -/
theorem exists_isText_array_iff {elements : List Json} :
    (∃ text, IsText numeral (array elements) text) ↔
      ∀ element ∈ elements, ∃ text, IsText numeral element text := by
  constructor
  · rintro ⟨_, inside, hinside, rfl⟩
    rw [elementTexts_eq_map] at hinside
    exact List.forall_mem_map.mp hinside.exists_text
  · intro h
    have hitems : ∀ item ∈ elementTexts numeral elements, ∃ text, item text := by
      rw [elementTexts_eq_map]
      exact List.forall_mem_map.mpr h
    obtain ⟨inside, hinside⟩ := exists_listed hitems
    exact ⟨_, inside, hinside, rfl⟩

/-- An object can be written exactly if the values of its members can. -/
theorem exists_isText_object_iff {members : List (String × Json)} :
    (∃ text, IsText numeral (object members) text) ↔
      ∀ found ∈ members, ∃ text, IsText numeral found.2 text := by
  constructor
  · rintro ⟨_, inside, hinside, rfl⟩ found hfound
    rw [memberTexts_eq_map] at hinside
    obtain ⟨_, _, _, _, text, -, -, -, htext, -⟩ :=
      List.forall_mem_map.mp hinside.exists_text found hfound
    exact ⟨text, htext⟩
  · intro h
    have hitems : ∀ item ∈ memberTexts numeral members, ∃ text, item text := by
      rw [memberTexts_eq_map]
      exact List.forall_mem_map.mpr fun found hfound => exists_memberText (h found hfound) found.1
    obtain ⟨inside, hinside⟩ := exists_listed hitems
    exact ⟨_, inside, hinside, rfl⟩

/-- What can be written can be written with its keys merged. -/
theorem exists_isText_merge {d : Json} (h : ∃ text, IsText numeral d text) :
    ∃ text, IsText numeral d.merge text := by
  induction d using induction_inside with
  | step d ih =>
    cases d with
    | null | boolean | number | string => exact h
    | array elements =>
      rw [exists_isText_array_iff] at h
      refine exists_isText_array_iff.mpr fun w hw => ?_
      obtain ⟨v, hv, rfl⟩ := exists_of_mem_inside_merge (d := array elements) hw
      exact ih v hv (h v hv)
    | object members =>
      rw [exists_isText_object_iff] at h
      refine exists_isText_object_iff.mpr fun found hfound => ?_
      obtain ⟨v, hv, hmerge⟩ := exists_of_mem_inside_merge (d := object members)
        (List.mem_map_of_mem hfound)
      rw [← hmerge]
      have htexts : ∀ v ∈ (object members).inside, ∃ text, IsText numeral v text :=
        List.forall_mem_map.mpr h
      exact ih v hv (htexts v hv)

end

/-- Every value that can be written, and is not too deep, is the value of some source. -/
theorem exists_isSource_iff {v : Json} :
    (∃ source, IsSource v source) ↔ v.depth ≤ depthLimit ∧ ∃ text, IsText NumberText v text := by
  constructor
  · rintro ⟨source, hdepth, gap, text, gap', -, htext, -⟩
    exact ⟨hdepth, text, htext⟩
  · rintro ⟨hdepth, text, htext⟩
    refine ⟨String.ofList text, hdepth, [], text, [], .nil, htext, .nil, ?_⟩
    rw [String.toList_ofList, List.nil_append, List.append_nil]

/-- What a document is merged to has documents of its own. -/
theorem exists_isSource_merge {d : Json} {source : String} (h : IsSource d source) :
    ∃ source', IsSource d.merge source' := by
  obtain ⟨hdepth, htext⟩ := exists_isSource_iff.mp ⟨source, h⟩
  exact exists_isSource_iff.mpr ⟨Nat.le_trans (depth_merge_le d) hdepth, exists_isText_merge htext⟩

end Json
end NestedStyles

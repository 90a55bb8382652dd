import NestedStyles.Json.Basic
import NestedStyles.Proofs.Keyed

/-!
# Values without repeated keys

Merging leaves no repeated key at any depth (`Json.uniqueKeys_merge`), and a value without one stays
as it is (`Json.UniqueKeys.merge_eq_self`).
-/

namespace NestedStyles.Json

mutual
/-- No object in the value repeats a key, at any depth. -/
def UniqueKeys : Json → Prop
  | array elements => UniqueKeysElements elements
  | object members => (Keyed.keys members).Nodup ∧ UniqueKeysMembers members
  | _ => True
termination_by structural value => value

def UniqueKeysElements : List Json → Prop
  | [] => True
  | element :: rest => element.UniqueKeys ∧ UniqueKeysElements rest
termination_by structural elements => elements

def UniqueKeysMembers : List (String × Json) → Prop
  | [] => True
  | (_, value) :: rest => value.UniqueKeys ∧ UniqueKeysMembers rest
termination_by structural members => members
end

mutual
/-- Merging leaves a value alone in which every key stands once. -/
theorem UniqueKeys.merge_eq_self : ∀ {v : Json}, v.UniqueKeys → v.merge = v
  | null, _ | boolean _, _ | number _, _ | string _, _ => rfl
  | array elements, h => congrArg array (UniqueKeysElements.merge_eq_self h)
  | object members, h => by
    rw [merge, UniqueKeysMembers.merge_eq_self h.2, Keyed.ofList_eq_self h.1]

theorem UniqueKeysElements.merge_eq_self : ∀ {elements : List Json},
    UniqueKeysElements elements → mergeElements elements = elements
  | [], _ => rfl
  | _ :: _, h => by
    rw [mergeElements, UniqueKeys.merge_eq_self h.1, UniqueKeysElements.merge_eq_self h.2]

theorem UniqueKeysMembers.merge_eq_self : ∀ {members : List (String × Json)},
    UniqueKeysMembers members → mergeMembers members = members
  | [], _ => rfl
  | (_, _) :: _, h => by
    rw [mergeMembers, UniqueKeys.merge_eq_self h.1, UniqueKeysMembers.merge_eq_self h.2]
end

theorem uniqueKeysMembers_iff {members : List (String × Json)} :
    UniqueKeysMembers members ↔ ∀ member ∈ members, member.2.UniqueKeys := by
  induction members with
  | nil => simp [UniqueKeysMembers]
  | cons member rest ih => rw [UniqueKeysMembers, ih, List.forall_mem_cons]

mutual
/-- In a merged value every key stands once, at every depth. -/
theorem uniqueKeys_merge : ∀ v : Json, v.merge.UniqueKeys
  | null | boolean _ | number _ | string _ => trivial
  | array elements => uniqueKeysElements_mergeElements elements
  | object members => by
    refine ⟨Keyed.nodup_keys_ofList _, uniqueKeysMembers_iff.mpr ?_⟩
    exact Keyed.forall_mem_ofList
      (uniqueKeysMembers_iff.mp (uniqueKeysMembers_mergeMembers members))

theorem uniqueKeysElements_mergeElements : ∀ elements : List Json,
    UniqueKeysElements (mergeElements elements)
  | [] => trivial
  | element :: rest => ⟨uniqueKeys_merge element, uniqueKeysElements_mergeElements rest⟩

theorem uniqueKeysMembers_mergeMembers : ∀ members : List (String × Json),
    UniqueKeysMembers (mergeMembers members)
  | [] => trivial
  | (_, value) :: rest => ⟨uniqueKeys_merge value, uniqueKeysMembers_mergeMembers rest⟩
end

end NestedStyles.Json

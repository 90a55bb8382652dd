import Mathlib.Data.Finset.Card
import NestedStyles.Proofs.Keyed

/-!
# Runs of writes

Entries after any number of writes: the keys that were there keep their order, new keys follow in
the order of their first write, and every key has the value of its last write
(`Keyed.written_insertAll`).
-/

namespace NestedStyles.Keyed

variable {κ α : Type} [DecidableEq κ]

/-- Write pairs one after the other. -/
def insertAll (start : Keyed κ α) (writes : List (κ × α)) : Keyed κ α :=
  writes.foldl (fun entries write => insert write.1 write.2 entries) start

/-- The keys of writes that are not there yet, in the order of their first write. -/
def newKeys (start : Keyed κ α) (writes : List (κ × α)) : List κ :=
  ((keys writes).filter (· ∉ keys start)).eraseDups

/-- The value under a key after writes: that of the last write to the key, or else the one that it
has at the start. -/
def valueAfter (start : Keyed κ α) (writes : List (κ × α)) (key : κ) : Option α :=
  (find? key writes.reverse).or (find? key start)

/-- What is seen of entries after writes: the entries themselves, what is found under a key, and how
many entries there are. -/
structure Written (start : Keyed κ α) (writes : List (κ × α)) (now : Keyed κ α)
    (found : κ → Option α) (size : Nat) : Prop where
  nodup : (keys now).Nodup
  keys_eq : keys now = keys start ++ newKeys start writes
  values : ∀ key value, (key, value) ∈ now ↔ valueAfter start writes key = some value
  found : ∀ key value, found key = some value ↔ (key, value) ∈ now
  size_eq : size = (keys start ++ keys writes).toFinset.card

/-! ## One write -/

theorem keys_insert (key : κ) (value : α) (entries : Keyed κ α) :
    keys (insert key value entries) =
      if key ∈ keys entries then keys entries else keys entries ++ [key] := by
  induction entries with
  | nil => rfl
  | cons entry rest ih =>
    obtain ⟨k, v⟩ := entry
    by_cases h : k = key
    · simp [insert, h]
    · rw [insert, if_neg h, keys_cons, ih]
      simp only [keys_cons, List.mem_cons, Ne.symm h, false_or]
      split <;> rfl

theorem insertAll_cons (start : Keyed κ α) (write : κ × α) (writes : List (κ × α)) :
    insertAll start (write :: writes) = insertAll (insert write.1 write.2 start) writes := rfl

theorem insertAll_concat (start : Keyed κ α) (writes : List (κ × α)) (write : κ × α) :
    insertAll start (writes ++ [write]) = insert write.1 write.2 (insertAll start writes) :=
  List.foldl_concat ..

theorem valueAfter_concat (start : Keyed κ α) (writes : List (κ × α)) (write : κ × α) (key : κ) :
    valueAfter start (writes ++ [write]) key =
      if write.1 = key then some write.2 else valueAfter start writes key := by
  rw [valueAfter, List.reverse_concat, find?]
  split <;> rfl

/-- One more write adds its key to the new ones, if it is not there already. -/
theorem newKeys_concat (start : Keyed κ α) (writes : List (κ × α)) (write : κ × α) :
    newKeys start (writes ++ [write]) =
      if write.1 ∈ keys start ++ newKeys start writes then newKeys start writes
      else newKeys start writes ++ [write.1] := by
  have hkeys : keys (writes ++ [write]) = keys writes ++ [write.1] := List.map_append
  rw [newKeys, hkeys, List.filter_append, List.eraseDups_append, ← newKeys]
  by_cases hstart : write.1 ∈ keys start
  · simp [hstart]
  · have hfresh : [write.1].filter (· ∉ keys start) = [write.1] :=
      List.filter_eq_self.mpr fun key hkey =>
        decide_eq_true (List.mem_singleton.mp hkey ▸ hstart)
    rw [hfresh, List.removeAll, List.filter_singleton]
    by_cases hnew : write.1 ∈ newKeys start writes
    · rw [List.elem_eq_true_of_mem (List.mem_eraseDups.mp hnew)]
      simp [hnew]
    · rw [Bool.eq_false_iff.mpr (mt List.mem_of_elem_eq_true (mt List.mem_eraseDups.mpr hnew))]
      simp [hstart, hnew, List.eraseDups_cons]

/-! ## All writes -/

/-- What is found after writes is the value of the last one to the key. -/
theorem find?_insertAll (start : Keyed κ α) (writes : List (κ × α)) (key : κ) :
    find? key (insertAll start writes) = valueAfter start writes key := by
  induction writes using List.reverseRecOn with
  | nil => rfl
  | append_singleton writes write ih =>
    rw [insertAll_concat, find?_insert, valueAfter_concat, ih]

/-- Old keys keep their order, and new ones follow in the order of their first write. -/
theorem keys_insertAll (start : Keyed κ α) (writes : List (κ × α)) :
    keys (insertAll start writes) = keys start ++ newKeys start writes := by
  induction writes using List.reverseRecOn with
  | nil => exact (List.append_nil _).symm
  | append_singleton writes write ih =>
    rw [insertAll_concat, keys_insert, ih, newKeys_concat]
    split
    · rfl
    · rw [List.append_assoc]

theorem mem_keys_insertAll {start : Keyed κ α} {writes : List (κ × α)} {key : κ} :
    key ∈ keys (insertAll start writes) ↔ key ∈ keys start ++ keys writes := by
  rw [keys_insertAll, newKeys]
  simp only [List.mem_append, List.mem_eraseDups, List.mem_filter, decide_eq_true_eq]
  tauto

/-- Under distinct keys, finding is membership. -/
theorem find?_eq_some_iff {entries : Keyed κ α} (h : (keys entries).Nodup) {key : κ} {value : α} :
    find? key entries = some value ↔ (key, value) ∈ entries := by
  refine ⟨mem_of_find?_eq_some, fun hmem => ?_⟩
  obtain ⟨front, back, rfl⟩ := List.append_of_mem hmem
  rw [keys, List.map_append] at h
  exact find?_eq_some_iff_append.mpr ⟨front, back, notMem_of_nodup_append_cons h, rfl⟩

theorem nodup_keys_insertAll {start : Keyed κ α} (h : (keys start).Nodup)
    (writes : List (κ × α)) : (keys (insertAll start writes)).Nodup := nodup_keys_foldl_insert h

/-- Writes to entries under distinct keys keep the keys distinct and in order, and the last write to
a key wins. -/
theorem written_insertAll {start : Keyed κ α} (h : (keys start).Nodup) (writes : List (κ × α)) :
    Written start writes (insertAll start writes) (find? · (insertAll start writes))
      (insertAll start writes).length where
  nodup := nodup_keys_insertAll h writes
  keys_eq := keys_insertAll start writes
  values key value := by
    rw [← find?_insertAll, find?_eq_some_iff (nodup_keys_insertAll h writes)]
  found key value := find?_eq_some_iff (nodup_keys_insertAll h writes)
  size_eq := by
    have hset : (keys (insertAll start writes)).toFinset = (keys start ++ keys writes).toFinset :=
      List.toFinset.ext fun _ => mem_keys_insertAll
    rw [← hset, List.toFinset_card_of_nodup (nodup_keys_insertAll h writes), keys, List.length_map]

end NestedStyles.Keyed

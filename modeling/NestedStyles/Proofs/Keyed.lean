import Mathlib.Data.List.Forall2
import Mathlib.Data.List.Nodup
import Mathlib.Data.List.Perm.Subperm
import NestedStyles.Keyed

/-!
# Distinct keys

Writing keeps the keys of entries distinct (`nodup_keys_insert`, `nodup_keys_ofList`), and pairs
under distinct keys are their own entries (`ofList_eq_self`). Where keys are distinct, entries that
cover others of the same number correspond to them one by one (`exists_perm_of_covers`).
-/

namespace NestedStyles.Keyed

variable {κ α β : Type}

@[simp] theorem keys_nil : keys ([] : Keyed κ α) = [] := rfl

@[simp] theorem keys_cons (entry : κ × α) (entries : Keyed κ α) :
    keys (entry :: entries) = entry.1 :: keys entries := rfl

theorem mem_keys_of_mem {entry : κ × α} {entries : Keyed κ α} (h : entry ∈ entries) :
    entry.1 ∈ keys entries := List.mem_map_of_mem h

/-- Two entries under one key, with values in a relation. -/
def SameKey (r : α → β → Prop) (entry : κ × α) (other : κ × β) : Prop :=
  entry.1 = other.1 ∧ r entry.2 other.2

theorem keys_eq_of_forall₂ {r : α → β → Prop} {entries : Keyed κ α} {others : Keyed κ β}
    (h : List.Forall₂ (SameKey r) entries others) : keys entries = keys others := by
  induction h with
  | nil => rfl
  | cons hentry _ ih => rw [keys_cons, keys_cons, hentry.1, ih]

/-- Entries correspond one by one if their keys are the same, in order, and their values are in the
relation, place by place. -/
theorem forall₂_sameKey_iff_zip {r : α → β → Prop} {entries : Keyed κ α} {others : Keyed κ β} :
    List.Forall₂ (SameKey r) entries others ↔
      keys entries = keys others ∧ ∀ pair ∈ entries.zip others, r pair.1.2 pair.2.2 := by
  constructor
  · intro h
    refine ⟨keys_eq_of_forall₂ h, fun pair hpair => ?_⟩
    exact ((List.forall₂_iff_zip.mp h).2 hpair).2
  · rintro ⟨hkeys, h⟩
    induction entries generalizing others with
    | nil =>
      obtain rfl := List.map_eq_nil_iff.mp hkeys.symm
      exact .nil
    | cons entry entries ih =>
      cases others with
      | nil => cases hkeys
      | cons other others =>
        obtain ⟨hkey, hkeys⟩ := List.cons.inj hkeys
        obtain ⟨hentry, hrest⟩ := List.forall_mem_cons.mp h
        exact .cons ⟨hkey, hentry⟩ (ih hkeys hrest)

theorem notMem_of_nodup_append_cons {front rest : List κ} {key : κ}
    (h : (front ++ key :: rest).Nodup) : key ∉ front :=
  mt (List.mem_append_left rest) (List.nodup_cons.mp (List.nodup_middle.mp h)).1

variable [DecidableEq κ]

/-! ## Writing -/

theorem mem_keys_insert {key k : κ} {value : α} {entries : Keyed κ α} :
    k ∈ keys (insert key value entries) ↔ k = key ∨ k ∈ keys entries := by
  induction entries with
  | nil => simp [insert]
  | cons entry rest ih =>
    obtain ⟨k', v⟩ := entry
    by_cases h : k' = key
    · simp [insert, h]
    · simp only [insert, if_neg h, keys_cons, List.mem_cons, ih]
      exact or_left_comm

theorem nodup_keys_insert {key : κ} {value : α} {entries : Keyed κ α} (h : (keys entries).Nodup) :
    (keys (insert key value entries)).Nodup := by
  induction entries with
  | nil => simp [insert]
  | cons entry rest ih =>
    obtain ⟨k', v⟩ := entry
    obtain ⟨hk', hrest⟩ := List.nodup_cons.mp h
    by_cases hk : k' = key
    · simpa [insert, hk] using h
    · rw [insert, if_neg hk, keys_cons, List.nodup_cons, mem_keys_insert, not_or]
      exact ⟨⟨hk, hk'⟩, ih hrest⟩

theorem nodup_keys_foldl_insert {pairs : List (κ × α)} {entries : Keyed κ α}
    (h : (keys entries).Nodup) :
    (keys (pairs.foldl (fun entries pair => insert pair.1 pair.2 entries) entries)).Nodup := by
  induction pairs generalizing entries with
  | nil => exact h
  | cons pair pairs ih => exact ih (nodup_keys_insert h)

/-- However often keys are repeated, the entries have distinct ones. -/
theorem nodup_keys_ofList (pairs : List (κ × α)) : (keys (ofList pairs)).Nodup :=
  nodup_keys_foldl_insert List.nodup_nil

theorem forall_mem_insert {p : α → Prop} {key : κ} {value : α} {entries : Keyed κ α}
    (h : ∀ entry ∈ entries, p entry.2) (hvalue : p value) :
    ∀ entry ∈ insert key value entries, p entry.2 := by
  induction entries with
  | nil => simpa [insert] using hvalue
  | cons entry rest ih =>
    obtain ⟨hentry, hrest⟩ := List.forall_mem_cons.mp h
    rw [insert]
    split
    · exact List.forall_mem_cons.mpr ⟨hvalue, hrest⟩
    · exact List.forall_mem_cons.mpr ⟨hentry, ih hrest⟩

theorem forall_mem_foldl_insert {p : α → Prop} {pairs : List (κ × α)} {entries : Keyed κ α}
    (h : ∀ entry ∈ entries, p entry.2) (hpairs : ∀ pair ∈ pairs, p pair.2) :
    ∀ entry ∈ pairs.foldl (fun entries pair => insert pair.1 pair.2 entries) entries,
      p entry.2 := by
  induction pairs generalizing entries with
  | nil => exact h
  | cons pair pairs ih =>
    obtain ⟨hpair, hrest⟩ := List.forall_mem_cons.mp hpairs
    exact ih (forall_mem_insert h hpair) hrest

/-- What holds of all values that are written holds of all that are there in the end. -/
theorem forall_mem_ofList {p : α → Prop} {pairs : List (κ × α)}
    (h : ∀ pair ∈ pairs, p pair.2) : ∀ entry ∈ ofList pairs, p entry.2 :=
  forall_mem_foldl_insert (fun _ hentry => nomatch hentry) h

/-- A new key stands at the end. -/
theorem insert_of_notMem {key : κ} {value : α} {entries : Keyed κ α} (h : key ∉ keys entries) :
    insert key value entries = entries ++ [(key, value)] := by
  induction entries with
  | nil => rfl
  | cons entry rest ih =>
    obtain ⟨k', v⟩ := entry
    obtain ⟨hk, hrest⟩ := List.ne_and_not_mem_of_not_mem_cons h
    rw [insert, if_neg (Ne.symm hk), ih hrest, List.cons_append]

theorem foldl_insert_of_nodup {pairs : List (κ × α)} {entries : Keyed κ α}
    (h : (keys (entries ++ pairs)).Nodup) :
    pairs.foldl (fun entries pair => insert pair.1 pair.2 entries) entries = entries ++ pairs := by
  induction pairs generalizing entries with
  | nil => simp
  | cons pair pairs ih =>
    have hpair : pair.1 ∉ keys entries := by
      rw [keys, List.map_append] at h
      exact notMem_of_nodup_append_cons h
    rw [List.foldl_cons, insert_of_notMem hpair, ih (by simpa using h), List.append_assoc,
      List.singleton_append]

/-- Pairs under distinct keys are the entries that writing them makes. -/
theorem ofList_eq_self {pairs : List (κ × α)} (h : (keys pairs).Nodup) : ofList pairs = pairs :=
  foldl_insert_of_nodup h

/-- The first entry under a key is the one that is written. -/
theorem insert_append_cons {front : Keyed κ α} {key : κ} (h : key ∉ keys front) (value old : α)
    (back : Keyed κ α) :
    insert key value (front ++ (key, old) :: back) = front ++ (key, value) :: back := by
  induction front with
  | nil => exact if_pos rfl
  | cons entry front ih =>
    obtain ⟨k, v⟩ := entry
    obtain ⟨hk, hfront⟩ := List.ne_and_not_mem_of_not_mem_cons h
    rw [List.cons_append, insert, if_neg (Ne.symm hk), ih hfront, List.cons_append]

/-! ## Finding -/

/-- Finding is the lookup of the library. -/
theorem find?_eq_lookup (key : κ) (entries : Keyed κ α) :
    find? key entries = entries.lookup key := by
  induction entries with
  | nil => rfl
  | cons entry rest ih =>
    obtain ⟨k, v⟩ := entry
    rw [find?, List.lookup_cons, ih]
    by_cases h : k = key
    · rw [if_pos h, beq_iff_eq.mpr h.symm]
    · rw [if_neg h, beq_eq_false_iff_ne.mpr (Ne.symm h)]

/-- The first entry under a key is the one that is found. -/
theorem find?_eq_some_iff_append {key : κ} {value : α} {entries : Keyed κ α} :
    find? key entries = some value ↔
      ∃ front back, key ∉ keys front ∧ entries = front ++ (key, value) :: back := by
  have hfront (front : Keyed κ α) :
      (∀ entry ∈ front, (key != entry.1) = true) ↔ key ∉ keys front := by
    simp only [keys, List.mem_map, bne_iff_ne, ne_eq, not_exists, not_and]
    exact forall₂_congr fun _ _ => not_congr eq_comm
  simp only [find?_eq_lookup, List.lookup_eq_some_iff, hfront, and_comm]

theorem mem_of_find?_eq_some {key : κ} {value : α} {entries : Keyed κ α}
    (h : find? key entries = some value) : (key, value) ∈ entries := by
  obtain ⟨front, back, -, rfl⟩ := find?_eq_some_iff_append.mp h
  exact List.mem_append_right _ List.mem_cons_self

/-! ## Covering -/

/-- Every value has one under its key among others, in a relation to it. -/
def Covers (r : α → β → Prop) (entries : Keyed κ α) (others : Keyed κ β) : Prop :=
  ∀ entry ∈ entries, ∃ value, find? entry.1 others = some value ∧ r entry.2 value

@[simp] theorem covers_nil {r : α → β → Prop} {others : Keyed κ β} :
    Covers r ([] : Keyed κ α) others := fun _ h => nomatch h

@[simp] theorem covers_cons {r : α → β → Prop} {entry : κ × α} {entries : Keyed κ α}
    {others : Keyed κ β} :
    Covers r (entry :: entries) others ↔
      (∃ value, find? entry.1 others = some value ∧ r entry.2 value) ∧ Covers r entries others :=
  List.forall_mem_cons

/-- Distinct keys that are covered by as many entries leave none of these out. -/
theorem exists_perm_of_covers {r : α → β → Prop} {entries : Keyed κ α} {others : Keyed κ β}
    (hkeys : (keys entries).Nodup) (hlength : entries.length = others.length)
    (h : Covers r entries others) :
    ∃ matched, List.Forall₂ (SameKey r) entries matched ∧ matched.Perm others := by
  have hmatched : ∃ matched, List.Forall₂ (SameKey r) entries matched ∧ matched ⊆ others := by
    clear hkeys hlength
    induction entries with
    | nil => exact ⟨[], .nil, List.nil_subset _⟩
    | cons entry rest ih =>
      obtain ⟨⟨value, hfind, hr⟩, hrest⟩ := covers_cons.mp h
      obtain ⟨matched, hforall, hsubset⟩ := ih hrest
      exact ⟨(entry.1, value) :: matched, .cons ⟨rfl, hr⟩ hforall,
        List.cons_subset.mpr ⟨mem_of_find?_eq_some hfind, hsubset⟩⟩
  obtain ⟨matched, hforall, hsubset⟩ := hmatched
  rw [keys_eq_of_forall₂ hforall] at hkeys
  have hnodup : matched.Nodup := List.Nodup.of_map Prod.fst hkeys
  have hle : others.length ≤ matched.length :=
    Nat.le_of_eq (hlength.symm.trans hforall.length_eq)
  exact ⟨matched, hforall, (hnodup.subperm hsubset).perm_of_length_le hle⟩

/-- Distinct keys that are covered by entries under the same keys in the same order are covered
place by place. -/
theorem forall₂_of_covers {r : α → β → Prop} {entries : Keyed κ α} {others : Keyed κ β}
    (hnodup : (keys entries).Nodup) (hkeys : keys entries = keys others)
    (h : Covers r entries others) : List.Forall₂ (SameKey r) entries others := by
  induction entries generalizing others with
  | nil =>
    obtain rfl := List.map_eq_nil_iff.mp hkeys.symm
    exact .nil
  | cons entry rest ih =>
    cases others with
    | nil => cases hkeys
    | cons other others =>
      obtain ⟨hkey, hrest⟩ := List.cons.inj hkeys
      obtain ⟨hnotMem, hnodup⟩ := List.nodup_cons.mp hnodup
      refine .cons ⟨hkey, ?_⟩ (ih hnodup hrest fun e he => ?_)
      · obtain ⟨value, hfind, hr⟩ := h entry List.mem_cons_self
        rw [find?, if_pos hkey.symm] at hfind
        exact Option.some.inj hfind ▸ hr
      · obtain ⟨value, hfind, hr⟩ := h e (List.mem_cons_of_mem _ he)
        have hne : other.1 ≠ e.1 := fun heq => hnotMem (hkey.trans heq ▸ mem_keys_of_mem he)
        rw [find?, if_neg hne] at hfind
        exact ⟨value, hfind, hr⟩

end NestedStyles.Keyed

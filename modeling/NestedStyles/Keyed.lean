/-!
# Entries under keys, in order of first writing

A `Keyed κ α` is a list of entries in which each write either replaces the value of a key that is
there, at its place, or appends. Iteration is the list itself.
-/

namespace NestedStyles

/-- Entries in the order in which their keys were first written. -/
abbrev Keyed (κ α : Type) := List (κ × α)

namespace Keyed

variable {κ α : Type} [DecidableEq κ]

/-- Write a value under a key: a key that is there keeps its place. -/
def insert (key : κ) (value : α) : Keyed κ α → Keyed κ α
  | [] => [(key, value)]
  | (k, v) :: rest =>
    if k = key then (k, value) :: rest else (k, v) :: insert key value rest

/-- The value of the first entry under a key. This is `List.lookup` by decidable equality. -/
def find? (key : κ) : Keyed κ α → Option α
  | [] => none
  | (k, v) :: rest => if k = key then some v else find? key rest

/-- Write a value under a key, and give back the value that it replaces. -/
def exchange (key : κ) (value : α) : Keyed κ α → Option α × Keyed κ α
  | [] => (none, [(key, value)])
  | (k, v) :: rest =>
    if k = key then (some v, (k, value) :: rest)
    else
      let (replaced, rest) := exchange key value rest
      (replaced, (k, v) :: rest)

/-- The keys of the entries, in their order. -/
def keys (entries : Keyed κ α) : List κ := entries.map Prod.fst

/-- Write pairs one after the other, to no entries at first. Of equal keys the first has the place
and the last has the value. -/
def ofList (pairs : List (κ × α)) : Keyed κ α :=
  pairs.foldl (fun entries pair => insert pair.1 pair.2 entries) []

@[simp] theorem find?_insert (key k : κ) (value : α) (entries : Keyed κ α) :
    find? k (insert key value entries) = if key = k then some value else find? k entries := by
  induction entries with
  | nil => simp [insert, find?]
  | cons entry rest ih =>
    obtain ⟨k', v⟩ := entry
    by_cases h : k' = key
    · subst h
      by_cases hk : k' = k <;> simp [insert, find?, hk]
    · by_cases hk : k' = k
      · subst hk
        simp [insert, find?, h, Ne.symm h]
      · simp [insert, find?, h, hk, ih]

theorem exchange_eq (key : κ) (value : α) (entries : Keyed κ α) :
    exchange key value entries = (find? key entries, insert key value entries) := by
  induction entries with
  | nil => rfl
  | cons entry rest ih =>
    obtain ⟨k, v⟩ := entry
    by_cases h : k = key <;> simp [exchange, find?, insert, h, ih]

end Keyed
end NestedStyles

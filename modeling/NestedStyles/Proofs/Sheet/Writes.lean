import NestedStyles.Proofs.Keyed.Writes
import NestedStyles.Sheet.Basic

/-!
# Building styles and sheets

A style is built by inserting entries, or by declaring and nesting; a sheet by inserting groups.
After any run of these the last write to a key wins, at the place of the first (`last_write_wins`).
-/

namespace NestedStyles

namespace Style

theorem exchange_eq (s : Style) (key : String) (entry : Entry) :
    s.exchange key entry = (s.get? key, s.insert key entry) := by
  rw [exchange, Keyed.exchange_eq]
  rfl

/-- A write to a style. -/
inductive Write
  | insert (key : String) (entry : Entry)
  | declare (name : String) (value : Value)
  | nest (fragment : String) (inner : Style)

/-- The key that is written, and the entry that it gets. -/
def Write.pair : Write → String × Entry
  | insert key entry => (key, entry)
  | declare name value => (name, .value value)
  | nest fragment inner => (fragment, .style inner)

def perform (s : Style) : Write → Style
  | .insert key entry => (s.exchange key entry).2
  | .declare name value => s.declaring name value
  | .nest fragment inner => s.nesting fragment inner

def performAll (s : Style) (writes : List Write) : Style := writes.foldl perform s

theorem entries_perform (s : Style) (write : Write) :
    (s.perform write).entries = s.entries.insert write.pair.1 write.pair.2 := by
  cases write with
  | insert key entry => rw [perform, exchange_eq, Style.insert, entries_ofEntries]; rfl
  | declare name value => exact entries_ofEntries _
  | nest fragment inner => exact entries_ofEntries _

/-- Writes to a style are writes to its entries. -/
theorem entries_performAll (s : Style) (writes : List Write) :
    (s.performAll writes).entries = s.entries.insertAll (writes.map Write.pair) := by
  induction writes generalizing s with
  | nil => rfl
  | cons write writes ih =>
    rw [List.map_cons, Keyed.insertAll_cons, ← entries_perform]
    exact ih (s.perform write)

theorem ofList_eq_performAll (pairs : List (String × Entry)) :
    ofList pairs = empty.performAll (pairs.map fun pair => .insert pair.1 pair.2) := by
  have hentries := entries_performAll empty (pairs.map fun pair => .insert pair.1 pair.2)
  rw [List.map_map, show Write.pair ∘ (fun pair : String × Entry => .insert pair.1 pair.2) = id
    from rfl, List.map_id] at hentries
  rw [← ofEntries_entries (performAll _ _), hentries]
  rfl

end Style

namespace Sheet

theorem exchange_eq (t : Sheet) (selector : String) (style : Style) :
    t.exchange selector style = (t.get? selector, t.insert selector style) := by
  rw [exchange, Keyed.exchange_eq]
  rfl

/-- A write to a sheet, which gives back the style that it replaces or drops it. -/
inductive Write
  | insert (selector : String) (style : Style)
  | rule (selector : String) (style : Style)

/-- The selector that is written, and the style that it gets. -/
def Write.pair : Write → String × Style
  | insert selector style => (selector, style)
  | rule selector style => (selector, style)

def perform (t : Sheet) : Write → Sheet
  | .insert selector style => (t.exchange selector style).2
  | .rule selector style => t.insert selector style

def performAll (t : Sheet) (writes : List Write) : Sheet := writes.foldl perform t

theorem groups_perform (t : Sheet) (write : Write) :
    (t.perform write).groups = t.groups.insert write.pair.1 write.pair.2 := by
  cases write with
  | insert selector style => rw [perform, exchange_eq]; rfl
  | rule selector style => rfl

/-- Writes to a sheet are writes to its groups. -/
theorem groups_performAll (t : Sheet) (writes : List Write) :
    (t.performAll writes).groups = t.groups.insertAll (writes.map Write.pair) := by
  induction writes generalizing t with
  | nil => rfl
  | cons write writes ih =>
    rw [List.map_cons, Keyed.insertAll_cons, ← groups_perform]
    exact ih (t.perform write)

theorem ofList_eq_performAll (pairs : List (String × Style)) :
    ofList pairs = empty.performAll (pairs.map fun pair => .insert pair.1 pair.2) := by
  have hgroups := groups_performAll empty (pairs.map fun pair => .insert pair.1 pair.2)
  rw [List.map_map, show Write.pair ∘ (fun pair : String × Style => .insert pair.1 pair.2) = id
    from rfl, List.map_id] at hgroups
  rw [ofList, show Keyed.ofList pairs = empty.groups.insertAll pairs from rfl, ← hgroups]

end Sheet

/-- Whatever is written to a style or a sheet, its keys stay distinct: first come those that it had,
in their order, and then the new ones in the order of their first write. Each key has the value of
its last write, or the one that it had if it was not written; what is looked up under it is that
value, and an insertion that follows gives back what it replaces. Collecting pairs is inserting them
one after the other. -/
theorem last_write_wins :
    (∀ (s : Style) (writes : List Style.Write), s.keys.Nodup →
      Keyed.Written s.entries (writes.map Style.Write.pair) (s.performAll writes).entries
        (s.performAll writes).get? (s.performAll writes).size ∧
      ∀ key entry,
        ((s.performAll writes).exchange key entry).1 = (s.performAll writes).get? key) ∧
    (∀ (t : Sheet) (writes : List Sheet.Write), t.keys.Nodup →
      Keyed.Written t.groups (writes.map Sheet.Write.pair) (t.performAll writes).groups
        (t.performAll writes).get? (t.performAll writes).size ∧
      ∀ selector style,
        ((t.performAll writes).exchange selector style).1 = (t.performAll writes).get? selector) ∧
    (∀ pairs : List (String × Entry),
      Style.ofList pairs = Style.empty.performAll (pairs.map fun pair => .insert pair.1 pair.2)) ∧
    ∀ pairs : List (String × Style),
      Sheet.ofList pairs =
        Sheet.empty.performAll (pairs.map fun pair => .insert pair.1 pair.2) := by
  refine ⟨fun s writes h => ⟨?_, ?_⟩, fun t writes h => ⟨?_, ?_⟩, fun pairs => ?_, fun pairs => ?_⟩
  · have hwritten := Keyed.written_insertAll h (writes.map Style.Write.pair)
    rw [← Style.entries_performAll] at hwritten
    exact hwritten
  · intro key entry
    rw [Style.exchange_eq]
  · have hwritten := Keyed.written_insertAll h (writes.map Sheet.Write.pair)
    rw [← Sheet.groups_performAll] at hwritten
    exact hwritten
  · intro selector style
    rw [Sheet.exchange_eq]
  · exact Style.ofList_eq_performAll pairs
  · exact Sheet.ofList_eq_performAll pairs

/-- A style with a property to be overwritten. -/
def palette : Style := .declare "x" (.text "0") (.declare "color" (.text "red") .empty)

/-- Three writes, of which two are to the same key. -/
def repainting : List Style.Write :=
  [.nest "color" .empty, .declare "b" (.text "1"), .insert "color" (.value (.text "blue"))]

/-- A property becomes a nested style and a property again, at its place. -/
theorem last_write_wins_repainting :
    palette.keys.Nodup ∧ (palette.performAll repainting).keys = ["x", "color", "b"] ∧
    (palette.performAll repainting).get? "color" = some (.value (.text "blue")) ∧
    (palette.performAll repainting).get? "x" = some (.value (.text "0")) ∧
    (palette.performAll repainting).size = 3 ∧
    ((palette.performAll (repainting.take 2)).exchange "color" (.value (.text "blue"))).1 =
      some (.style .empty) := by
  have hnodup : palette.keys.Nodup := by decide
  obtain ⟨hstyle, -⟩ := last_write_wins
  obtain ⟨hwritten, -⟩ := hstyle palette repainting hnodup
  obtain ⟨-, hreplaced⟩ := hstyle palette (repainting.take 2) hnodup
  have hfound (key : String) (entry : Entry)
      (h : Keyed.valueAfter palette.entries (repainting.map Style.Write.pair) key = some entry) :
      (palette.performAll repainting).get? key = some entry :=
    (hwritten.found key entry).mpr ((hwritten.values key entry).mpr h)
  refine ⟨hnodup, hwritten.keys_eq.trans (by decide), hfound _ _ (by decide),
    hfound _ _ (by decide), hwritten.size_eq.trans (by decide), ?_⟩
  exact (hreplaced _ _).trans (by decide)

end NestedStyles

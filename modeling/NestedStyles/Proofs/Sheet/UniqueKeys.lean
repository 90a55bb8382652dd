import NestedStyles.Proofs.Json.Merge
import NestedStyles.Sheet.Load

/-!
# Sheets without repeated keys

The entries of a style and the groups of a sheet stand under distinct keys. Writing keeps it so
(`Style.UniqueKeys.insert`, `Sheet.UniqueKeys.insert`), and every sheet that is read is so, whatever
keys its document repeats (`Sheet.uniqueKeys_ofDocument`).
-/

namespace NestedStyles

namespace Style

/-- No style repeats a key, at any depth. -/
def UniqueKeys : Style → Prop
  | empty => True
  | declare name _ rest => name ∉ rest.keys ∧ rest.UniqueKeys
  | nest fragment inner rest => fragment ∉ rest.keys ∧ inner.UniqueKeys ∧ rest.UniqueKeys

end Style

def Entry.UniqueKeys : Entry → Prop
  | value _ => True
  | style s => s.UniqueKeys

/-- The selectors of the groups are distinct, and so are the keys in every style. -/
structure Sheet.UniqueKeys (t : Sheet) : Prop where
  nodup : t.groups.keys.Nodup
  styles : ∀ group ∈ t.groups, group.2.UniqueKeys

/-! ## Writing -/

namespace Style

theorem uniqueKeys_iff {s : Style} :
    s.UniqueKeys ↔ s.entries.keys.Nodup ∧ ∀ entry ∈ s.entries, entry.2.UniqueKeys := by
  induction s with
  | empty => simp [UniqueKeys, entries]
  | declare name value rest ih =>
    simp only [UniqueKeys, ih, entries, keys, Keyed.keys_cons, List.nodup_cons,
      List.forall_mem_cons, Entry.UniqueKeys, true_and, and_assoc]
  | nest fragment inner rest _ ih =>
    simp only [UniqueKeys, ih, entries, keys, Keyed.keys_cons, List.nodup_cons,
      List.forall_mem_cons, Entry.UniqueKeys, and_assoc, and_left_comm]

theorem UniqueKeys.nodup {s : Style} (h : s.UniqueKeys) : s.entries.keys.Nodup :=
  (uniqueKeys_iff.mp h).1

theorem UniqueKeys.insert {s : Style} (h : s.UniqueKeys) (key : String) {entry : Entry}
    (hentry : entry.UniqueKeys) : (s.insert key entry).UniqueKeys := by
  obtain ⟨hnodup, hentries⟩ := uniqueKeys_iff.mp h
  rw [uniqueKeys_iff, Style.insert, entries_ofEntries]
  exact ⟨Keyed.nodup_keys_insert hnodup, Keyed.forall_mem_insert hentries hentry⟩

theorem uniqueKeys_ofList {pairs : List (String × Entry)}
    (h : ∀ pair ∈ pairs, pair.2.UniqueKeys) : (ofList pairs).UniqueKeys := by
  rw [uniqueKeys_iff, ofList, entries_ofEntries]
  exact ⟨Keyed.nodup_keys_ofList pairs, Keyed.forall_mem_ofList h⟩

end Style

namespace Sheet

theorem UniqueKeys.insert {t : Sheet} (h : t.UniqueKeys) (selector : String) {style : Style}
    (hstyle : style.UniqueKeys) : (t.insert selector style).UniqueKeys :=
  ⟨Keyed.nodup_keys_insert h.nodup, Keyed.forall_mem_insert h.styles hstyle⟩

theorem uniqueKeys_ofList {pairs : List (String × Style)}
    (h : ∀ pair ∈ pairs, pair.2.UniqueKeys) : (ofList pairs).UniqueKeys :=
  ⟨Keyed.nodup_keys_ofList pairs, Keyed.forall_mem_ofList h⟩

end Sheet

/-! ## Reading -/

/-- A style has the keys of the members that it is read from. -/
theorem Style.keys_ofMembers {members : List (String × Json)} {path path' : List String}
    {s : Style} (h : Style.ofMembers members path = .ok (s, path')) :
    s.keys = Keyed.keys members := by
  induction members generalizing path s with
  | nil => cases h; rfl
  | cons member rest ih =>
    obtain ⟨key, value⟩ := member
    obtain ⟨⟨entry, _⟩, -, h⟩ := Json.bind_eq_ok.mp h
    obtain ⟨⟨style, _⟩, hstyle, h⟩ := Json.bind_eq_ok.mp h
    cases h
    cases entry <;> exact congrArg (key :: ·) (ih hstyle)

mutual
theorem Entry.uniqueKeys_ofJson {key : String} {path path' : List String} :
    ∀ {v : Json} {entry : Entry}, v.UniqueKeys → Entry.ofJson key v path = .ok (entry, path') →
      entry.UniqueKeys
  | .string _, _, _, h | .number _, _, _, h => by cases h; trivial
  | .null, _, _, h | .boolean _, _, _, h | .array _, _, _, h => by cases h
  | .object members, _, hv, h => by
    obtain ⟨⟨style, _⟩, hmembers, h⟩ := Json.bind_eq_ok.mp h
    cases h
    exact Style.uniqueKeys_ofMembers hv.1 hv.2 hmembers

theorem Style.uniqueKeys_ofMembers {path path' : List String} :
    ∀ {members : List (String × Json)} {s : Style}, (Keyed.keys members).Nodup →
      Json.UniqueKeysMembers members → Style.ofMembers members path = .ok (s, path') → s.UniqueKeys
  | [], _, _, _, h => by cases h; trivial
  | (key, value) :: rest, s, hnodup, hv, h => by
    obtain ⟨hkey, hrest⟩ := List.nodup_cons.mp hnodup
    obtain ⟨⟨entry, _⟩, hentry, h⟩ := Json.bind_eq_ok.mp h
    obtain ⟨⟨style, _⟩, hstyle, h⟩ := Json.bind_eq_ok.mp h
    cases h
    have hkey : key ∉ style.keys := by rwa [Style.keys_ofMembers hstyle]
    have hunique := Style.uniqueKeys_ofMembers hrest hv.2 hstyle
    cases entry with
    | value v => exact ⟨hkey, hunique⟩
    | style inner => exact ⟨hkey, Entry.uniqueKeys_ofJson hv.1 hentry, hunique⟩
end

namespace Sheet

theorem uniqueKeys_groupsOfMembers {members : List (String × Json)} {groups : Keyed String Style}
    (hv : Json.UniqueKeysMembers members) (h : groupsOfMembers members = .ok groups) :
    groups.keys = Keyed.keys members ∧ ∀ group ∈ groups, group.2.UniqueKeys := by
  induction members generalizing groups with
  | nil =>
    cases h
    exact ⟨rfl, fun _ hgroup => nomatch hgroup⟩
  | cons member rest ih =>
    obtain ⟨selector, value⟩ := member
    cases value with
    | object members =>
      obtain ⟨⟨style, _⟩, hstyle, h⟩ := Json.bind_eq_ok.mp h
      obtain ⟨others, hothers, h⟩ := Json.bind_eq_ok.mp h
      cases h
      obtain ⟨hkeys, hstyles⟩ := ih hv.2 hothers
      have hunique := Style.uniqueKeys_ofMembers hv.1.1 hv.1.2 hstyle
      exact ⟨congrArg (selector :: ·) hkeys, List.forall_mem_cons.mpr ⟨hunique, hstyles⟩⟩
    | _ => cases h

theorem ofJson_eq_ok_iff {v : Json} {t : Sheet} : ofJson v = .ok t ↔
    ∃ members, v = .object members ∧ groupsOfMembers members = .ok t.groups := by
  obtain ⟨groups⟩ := t
  cases v with
  | object members =>
    rw [ofJson]
    cases hgroups : groupsOfMembers members <;> simp [Except.map, hgroups]
  | _ => simp [ofJson]

theorem ofDocument_eq_ok_iff {v : Json} {t : Sheet} :
    ofDocument v = .ok t ↔ ofJson v.merge = .ok t := by
  rw [ofDocument]
  cases ofJson v.merge <;> simp [Except.mapError]

theorem uniqueKeys_ofJson {v : Json} {t : Sheet} (hv : v.UniqueKeys) (h : ofJson v = .ok t) :
    t.UniqueKeys := by
  obtain ⟨members, rfl, hgroups⟩ := ofJson_eq_ok_iff.mp h
  obtain ⟨hkeys, hstyles⟩ := uniqueKeys_groupsOfMembers hv.2 hgroups
  exact ⟨by rw [hkeys]; exact hv.1, hstyles⟩

/-- What is read from a document repeats no key, whatever keys the document repeats. -/
theorem uniqueKeys_ofDocument {v : Json} {t : Sheet} (h : ofDocument v = .ok t) :
    t.UniqueKeys := uniqueKeys_ofJson (Json.uniqueKeys_merge v) (ofDocument_eq_ok_iff.mp h)

end Sheet
end NestedStyles

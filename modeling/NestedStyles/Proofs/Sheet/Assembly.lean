import NestedStyles.Proofs.Sheet.UniqueKeys

/-!
# Reading by insertion

`Sheet.ofJson` lists the entries of a style as they come. Inserting them one after the other into an
empty style gives the same, or is refused with the same error, for a value that repeats no key
(`Sheet.assemble_eq_ofJson`): an insertion under a new key appends.
-/

namespace NestedStyles

mutual
/-- The entry of a value as in `Entry.ofJson`, with its style built by insertion. -/
def Entry.assemble (key : String) : Json → List String → Except ShapeError (Entry × List String)
  | .string s, path => .ok (.value (.text s), path)
  | .number n, path => .ok (.value (.number n.toBinary64), path)
  | .object members, path => do
    let (style, path) ← Style.assemble members .empty (path ++ [key])
    .ok (.style style, path.dropLast)
  | .null, path => .error (.entry (path ++ [key]) .null)
  | .boolean _, path => .error (.entry (path ++ [key]) .boolean)
  | .array _, path => .error (.entry (path ++ [key]) .array)
termination_by structural value => value

/-- The style after these members, each of which is inserted where it is read. -/
def Style.assemble : List (String × Json) → Style → List String →
    Except ShapeError (Style × List String)
  | [], style, path => .ok (style, path)
  | (key, value) :: rest, style, path => do
    let (entry, path) ← Entry.assemble key value path
    Style.assemble rest (style.insert key entry) path
termination_by structural members => members
end

namespace Sheet

def assembleGroups : List (String × Json) → Sheet → Except ShapeError Sheet
  | [], sheet => .ok sheet
  | (selector, .object members) :: rest, sheet => do
    let (style, _) ← Style.assemble members .empty [selector]
    assembleGroups rest (sheet.insert selector style)
  | (selector, value) :: _, _ => .error (.group selector value.kind)

/-- The sheet of a value by one insertion after the other, from the empty sheet on. -/
def assemble : Json → Except ShapeError Sheet
  | .object members => assembleGroups members empty
  | value => .error (.root value.kind)

end Sheet

namespace Style

/-- The entries of two styles, one after the other. -/
def append (front back : Style) : Style := ofEntries (front.entries ++ back.entries)

@[simp] theorem append_empty (s : Style) : s.append empty = s := by
  rw [append, show empty.entries = [] from rfl, List.append_nil, ofEntries_entries]

@[simp] theorem empty_append (s : Style) : empty.append s = s := ofEntries_entries s

theorem entries_insert_of_notMem {s : Style} {key : String} (h : key ∉ s.keys) {entry : Entry} :
    (s.insert key entry).entries = s.entries ++ [(key, entry)] := by
  rw [Style.insert, entries_ofEntries, Keyed.insert_of_notMem h]

theorem keys_insert_of_notMem {s : Style} {key : String} (h : key ∉ s.keys) {entry : Entry} :
    (s.insert key entry).keys = s.keys ++ [key] := by
  rw [keys, entries_insert_of_notMem h, Keyed.keys, List.map_append]
  rfl

end Style

mutual
/-- Inserting the entries of a value whose keys are distinct is listing them. -/
theorem Entry.assemble_eq_ofJson (key : String) (path : List String) :
    ∀ {v : Json}, v.UniqueKeys → Entry.assemble key v path = Entry.ofJson key v path
  | .string _, _ | .number _, _ | .null, _ | .boolean _, _ | .array _, _ => rfl
  | .object members, h => by
    rw [Entry.assemble, Entry.ofJson, Style.assemble_eq_ofMembers h.2 .empty h.1]
    cases Style.ofMembers members (path ++ [key]) with
    | error e => rfl
    | ok read => rw [Except.map, Style.empty_append]

/-- Members under new keys follow the entries that are there. -/
theorem Style.assemble_eq_ofMembers {path : List String} :
    ∀ {members : List (String × Json)}, Json.UniqueKeysMembers members →
      ∀ style : Style, (style.keys ++ Keyed.keys members).Nodup →
      Style.assemble members style path =
        (Style.ofMembers members path).map fun read => (style.append read.1, read.2)
  | [], _, style, _ => by
    rw [Style.assemble, Style.ofMembers, Except.map, Style.append_empty]
  | (key, value) :: rest, h, style, hnodup => by
    rw [Style.assemble, Style.ofMembers, Entry.assemble_eq_ofJson key path h.1]
    cases Entry.ofJson key value path with
    | error e => rfl
    | ok read =>
      obtain ⟨entry, path⟩ := read
      have hkey : key ∉ style.keys := Keyed.notMem_of_nodup_append_cons hnodup
      have hrest : ((style.insert key entry).keys ++ Keyed.keys rest).Nodup := by
        rwa [Style.keys_insert_of_notMem hkey, List.append_assoc]
      change Style.assemble rest (style.insert key entry) path = _
      rw [Style.assemble_eq_ofMembers h.2 _ hrest]
      cases hread : Style.ofMembers rest path with
      | error e => simp only [bind, Except.bind, hread, Except.map]
      | ok read =>
        simp only [bind, Except.bind, hread, Except.map]
        rw [Style.append, Style.entries_insert_of_notMem hkey, List.append_assoc]
        cases entry <;> rfl
end

namespace Sheet

/-- Groups under distinct selectors are inserted behind those that are there. -/
theorem assembleGroups_eq_groupsOfMembers {members : List (String × Json)} {sheet : Sheet}
    (h : Json.UniqueKeysMembers members) (hnodup : (sheet.keys ++ Keyed.keys members).Nodup) :
    assembleGroups members sheet =
      (groupsOfMembers members).map fun groups => ⟨sheet.groups ++ groups⟩ := by
  induction members generalizing sheet with
  | nil => rw [assembleGroups, groupsOfMembers, Except.map, List.append_nil]
  | cons member rest ih =>
    obtain ⟨selector, value⟩ := member
    cases value with
    | object members =>
      have hselector : selector ∉ sheet.keys := Keyed.notMem_of_nodup_append_cons hnodup
      rw [assembleGroups, groupsOfMembers, Style.assemble_eq_ofMembers h.1.2 .empty h.1.1]
      cases Style.ofMembers members [selector] with
      | error e => rfl
      | ok read =>
        obtain ⟨style, path⟩ := read
        have hgroups : (sheet.insert selector style).groups =
            sheet.groups ++ [(selector, style)] := Keyed.insert_of_notMem hselector
        have hrest : ((sheet.insert selector style).keys ++ Keyed.keys rest).Nodup := by
          rw [Sheet.keys, hgroups, Keyed.keys, List.map_append, List.append_assoc]
          exact hnodup
        change assembleGroups rest (sheet.insert selector (Style.empty.append style)) = _
        rw [Style.empty_append, ih h.2 hrest, hgroups]
        cases groupsOfMembers rest with
        | error e => simp only [bind, Except.bind, Except.map]
        | ok groups =>
          simp only [bind, Except.bind, Except.map, List.append_assoc]
          rfl
    | _ => rfl

/-- Inserting the groups and entries of a value one after the other reads the sheet of the value. -/
theorem assemble_eq_ofJson {v : Json} (h : v.UniqueKeys) : assemble v = ofJson v := by
  cases v with
  | object members => exact assembleGroups_eq_groupsOfMembers h.2 h.1
  | _ => rfl

end Sheet
end NestedStyles

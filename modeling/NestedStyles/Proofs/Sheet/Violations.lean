import Mathlib.Data.List.Find
import NestedStyles.Proofs.Json.Merge
import NestedStyles.Proofs.Style.Nodes
import NestedStyles.Sheet.Load

/-!
# Where a value is no sheet

`Json.violations` lists every place of a value that keeps it from being a sheet, in document order
and without stopping at the first. Reading a sheet fails exactly with the first place of the list
(`Sheet.failure?_ofJson`), so it succeeds exactly where the list is empty.
-/

namespace NestedStyles

/-! ## Results -/

/-- The error of a result, if it is one. -/
def failure? : Except ε α → Option ε
  | .ok _ => none
  | .error e => some e

@[simp] theorem failure?_ok (a : α) : failure? (.ok a : Except ε α) = none := rfl

@[simp] theorem failure?_error (e : ε) : failure? (.error e : Except ε α) = some e := rfl

theorem failure?_eq_none {x : Except ε α} : failure? x = none ↔ ∃ a, x = .ok a := by
  cases x <;> simp

theorem failure?_eq_some {x : Except ε α} {e : ε} : failure? x = some e ↔ x = .error e := by
  cases x <;> simp

@[simp] theorem failure?_map (f : α → β) (x : Except ε α) : failure? (x.map f) = failure? x := by
  cases x <;> rfl

@[simp] theorem failure?_mapError (f : ε → ε') (x : Except ε α) :
    failure? (x.mapError f) = (failure? x).map f := by
  cases x <;> rfl

/-- Of one result and another behind it, the first failure counts. -/
theorem failure?_bind {x : Except ε α} {f : α → Except ε β} (next : Option ε)
    (h : ∀ a, x = .ok a → failure? (f a) = next) :
    failure? (x >>= f) = (failure? x).or next := by
  cases x with
  | ok a => exact h a rfl
  | error e => rfl

/-! ## Places -/

namespace Json

mutual
/-- A value and all that stands under its keys at every depth, in document order. Nothing in a
list stands under keys. -/
def places : Json → List (Located Json)
  | object members => ⟨[], object members⟩ :: placesOfMembers members
  | value => [⟨[], value⟩]
termination_by structural value => value

def placesOfMembers : List (String × Json) → List (Located Json)
  | [] => []
  | (key, value) :: rest => value.places.map (.under key) ++ placesOfMembers rest
termination_by structural members => members
end

theorem path_ne_nil_of_mem_placesOfMembers {members : List (String × Json)}
    {place : Located Json} (h : place ∈ placesOfMembers members) : place.path ≠ [] := by
  induction members with
  | nil => cases h
  | cons member rest ih =>
    rcases List.mem_append.mp h with h | h
    · obtain ⟨inside, -, rfl⟩ := List.mem_map.mp h
      exact List.cons_ne_nil _ _
    · exact ih h

/-- Whether a value can be no entry of a style: it is neither a text nor a number nor a style. -/
def isNoEntry (v : Json) : Bool :=
  match v.kind with
  | .null | .boolean | .array => true
  | .number | .string | .object => false

end Json

namespace Located

/-- Whether what stands at a place keeps the value around it from being a sheet. The sheet and its
groups have to be objects, and in a group there are entries. -/
def violates (place : Located Json) : Bool :=
  match place.path with
  | [] | [_] => place.content.kind ≠ .object
  | _ => place.content.isNoEntry

/-- What could stand at the end of a path, which depends on its length only. -/
def expected : List String → String
  | [] => "an object of rule groups"
  | [_] => "a style node object"
  | _ => "a number, a string, or a nested style node"

/-- What is said about a violation: the keys that lead there, in order and as they are, what
belongs there, and the kind of value that stands there. -/
def complaint (place : Located Json) : String :=
  (if place.path = [] then "" else "`" ++ " > ".intercalate place.path ++ "`: ") ++
    "expected " ++ expected place.path ++ ", found " ++ place.content.kind.word

/-- The error about the value at a place. -/
def shapeError (place : Located Json) : ShapeError :=
  match place.path with
  | [] => .root place.content.kind
  | [selector] => .group selector place.content.kind
  | path => .entry path place.content.kind

/-- A shape error is told by the complaint about its place. -/
theorem message_shapeError (place : Located Json) :
    place.shapeError.message = place.complaint := by
  obtain ⟨path, value⟩ := place
  rcases path with _ | ⟨selector, _ | ⟨key, path⟩⟩
  · rfl
  · change "`" ++ selector ++ ("`: " ++ "expected " ++ expected [selector] ++ ", found ") ++
      value.kind.word = _
    simp [complaint, String.append_assoc]
  · change "`" ++ " > ".intercalate (selector :: key :: path) ++
      ("`: " ++ "expected " ++ expected (selector :: key :: path) ++ ", found ") ++
      value.kind.word = _
    simp [complaint, String.append_assoc]

end Located

/-- Every place that keeps a value from being a sheet, in document order. -/
def Json.violations (v : Json) : List (Located Json) := v.places.filter Located.violates

/-! ## The check -/

mutual
/-- What is read under a key leaves the keys around it as they were. -/
theorem path_entryOfJson {key : String} {path path' : List String} :
    ∀ {v : Json} {entry : Entry}, Entry.ofJson key v path = .ok (entry, path') → path' = path
  | .string _, _, h | .number _, _, h => by cases h; rfl
  | .null, _, h | .boolean _, _, h | .array _, _, h => by cases h
  | .object members, _, h => by
    obtain ⟨⟨style, inside⟩, hmembers, hentry⟩ := Json.bind_eq_ok.mp h
    obtain rfl := path_ofMembers hmembers
    cases hentry
    exact List.dropLast_concat

theorem path_ofMembers {path path' : List String} :
    ∀ {members : List (String × Json)} {s : Style},
      Style.ofMembers members path = .ok (s, path') → path' = path
  | [], _, h => by cases h; rfl
  | (key, value) :: rest, _, h => by
    obtain ⟨⟨entry, behind⟩, hentry, hrest⟩ := Json.bind_eq_ok.mp h
    obtain ⟨⟨style, after⟩, hstyle, hs⟩ := Json.bind_eq_ok.mp hrest
    cases hs
    exact (path_ofMembers hstyle).trans (path_entryOfJson hentry)
end

mutual
/-- Inside of a style the first value that can be no entry is reported, under the keys that lead to
it behind those that lead to the style. -/
theorem failure?_entryOfJson (key : String) (path : List String) : ∀ v : Json,
    failure? (Entry.ofJson key v path) =
      (v.places.find? (·.content.isNoEntry)).map fun place =>
        .entry (path ++ key :: place.path) place.content.kind
  | .null | .boolean _ | .array _ => by
    simp [Entry.ofJson, Json.places, Json.isNoEntry, Json.kind]
  | .string _ | .number _ => by simp [Entry.ofJson, Json.places, Json.isNoEntry, Json.kind]
  | .object members => by
    rw [Entry.ofJson, failure?_bind none, failure?_ofMembers members]
    · simp [Json.places, Json.isNoEntry, Json.kind]
    · intro _ _
      rfl

/-- Reading a style fails at the first value that is no entry. -/
theorem failure?_ofMembers : ∀ (members : List (String × Json)) (path : List String),
    failure? (Style.ofMembers members path) =
      ((Json.placesOfMembers members).find? (·.content.isNoEntry)).map fun place =>
        .entry (path ++ place.path) place.content.kind
  | [], _ => rfl
  | (key, value) :: rest, path => by
    rw [Style.ofMembers, failure?_bind (failure? (Style.ofMembers rest path)),
      failure?_entryOfJson key path value, failure?_ofMembers rest path]
    · simp [Json.placesOfMembers, Option.map_or, Function.comp_def]
    · intro result hresult
      -- the rest is read under the keys that the entry was read under
      rw [← path_entryOfJson hresult, failure?_bind none, Option.or_none]
      intro _ _
      rfl
end

namespace Sheet

/-- Reading groups fails at the first place that has the wrong shape. -/
theorem failure?_groupsOfMembers (members : List (String × Json)) :
    failure? (groupsOfMembers members) =
      ((Json.placesOfMembers members).find? Located.violates).map Located.shapeError := by
  induction members with
  | nil => rfl
  | cons member rest ih =>
    obtain ⟨selector, value⟩ := member
    cases value with
    | object members =>
      -- what is inside of a group lies at the end of two keys or more
      have hinside : ∀ place ∈ Json.placesOfMembers members,
          (place.under selector).violates = place.content.isNoEntry ∧
            (place.under selector).shapeError =
              .entry ([selector] ++ place.path) place.content.kind := by
        intro place hplace
        obtain ⟨_ | ⟨key, path⟩, value⟩ := place
        · exact absurd rfl (Json.path_ne_nil_of_mem_placesOfMembers hplace)
        · exact ⟨rfl, rfl⟩
      have hgroup : (((Json.placesOfMembers members).map (.under selector)).find?
            Located.violates).map Located.shapeError =
          failure? (Style.ofMembers members [selector]) := by
        rw [failure?_ofMembers, List.find?_map, Option.map_map, Function.comp_def Located.violates,
          List.find?_congr fun place h => (hinside place h).1]
        exact Option.map_congr fun place h => (hinside place (List.mem_of_find?_eq_some h)).2
      rw [groupsOfMembers, failure?_bind (failure? (groupsOfMembers rest)), ih, ← hgroup,
        ← Option.map_or, ← List.find?_append]
      · rfl
      · intro style _
        rw [failure?_bind none, Option.or_none]
        intro _ _
        rfl
    | _ => rfl

/-- A value is refused for its first violation. -/
theorem failure?_ofJson (v : Json) :
    failure? (ofJson v) = v.violations.head?.map Located.shapeError := by
  rw [Json.violations, List.head?_filter]
  cases v with
  | object members =>
    rw [ofJson, failure?_map, failure?_groupsOfMembers]
    rfl
  | _ => rfl

/-- A value without repeated keys is a sheet exactly if nothing in it violates the shape. If
something does, the first violation in document order is what the diagnostic is about, and it has
no place in a text. -/
theorem ofDocument_first_violation (v : Json) (hv : v.UniqueKeys) :
    ((∃ t, ofDocument v = .ok t) ↔ v.violations = []) ∧
    ∀ first rest, v.violations = first :: rest →
      (ofDocument v).mapError LoadError.diagnostic = .error ⟨first.complaint, 0, 0⟩ := by
  rw [ofDocument, hv.merge_eq_self]
  constructor
  · rw [← failure?_eq_none, failure?_mapError, failure?_ofJson]
    simp
  · intro first rest h
    have hfirst : ofJson v = .error first.shapeError := by
      rw [← failure?_eq_some, failure?_ofJson, h]
      rfl
    rw [hfirst, ← Located.message_shapeError]
    rfl

/-- Two groups with styles in styles, whose second leaf is the first of three violations. -/
def threeViolations : Json :=
  .object [
    ("a", .object [
      ("b", .object [("x", .number (.integer 1)), ("y", .string "z")]),
      ("c d", .object [("e", .null), ("f", .array [])])]),
    ("g", .boolean true)]

/-- Three violations, of which the first lies three keys deep. -/
theorem ofDocument_first_violation_nested :
    threeViolations.UniqueKeys ∧
    threeViolations.violations =
      [⟨["a", "c d", "e"], .null⟩, ⟨["a", "c d", "f"], .array []⟩, ⟨["g"], .boolean true⟩] ∧
    (¬∃ t, ofDocument threeViolations = .ok t) ∧
    (ofDocument threeViolations).mapError LoadError.diagnostic =
      .error ⟨"`a > c d > e`: expected a number, a string, or a nested style node, found null",
        0, 0⟩ := by
  have hkeys : threeViolations.UniqueKeys := by
    simp [threeViolations, Json.UniqueKeys, Json.UniqueKeysMembers, Json.UniqueKeysElements]
  obtain ⟨hok, herror⟩ := ofDocument_first_violation threeViolations hkeys
  refine ⟨hkeys, rfl, fun h => ?_, herror _ _ rfl⟩
  exact List.cons_ne_nil _ _ (hok.mp h)

end Sheet
end NestedStyles

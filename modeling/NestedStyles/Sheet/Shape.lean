import NestedStyles.Json.Basic
import NestedStyles.Sheet.Basic

/-!
# Sheets from JSON values

A sheet is an object of rule groups, a style is an object whose members are strings, numbers and
styles. `Sheet.ofJson` refuses every other value, with the first place in document order where it
leaves that shape. It expects each key once, as `Json.merge` leaves it.
-/

namespace NestedStyles

/-- Where a value is not shaped like a sheet, and the kind of value that stands there. -/
inductive ShapeError
  | root (found : Json.Kind)
  | group (selector : String) (found : Json.Kind)
  /-- The keys lead from the top-level selector to the offending one. -/
  | entry (path : List String) (found : Json.Kind)
deriving DecidableEq, Repr

namespace ShapeError

/-- How an error of shape is told: the keys that lead to a value, what could stand there and what
does. -/
def message : ShapeError → String
  | root found => s!"expected an object of rule groups, found {found.word}"
  | group selector found => s!"`{selector}`: expected a style node object, found {found.word}"
  | entry path found =>
    let place := " > ".intercalate path
    s!"`{place}`: expected a number, a string, or a nested style node, found {found.word}"

end ShapeError

mutual
/-- The entry of a value under a key, and the keys around it. These are a stack that a style pushes
its key on while its members are read. -/
def Entry.ofJson (key : String) : Json → List String → Except ShapeError (Entry × List String)
  | .string s, path => .ok (.value (.text s), path)
  | .number n, path => .ok (.value (.number n.toBinary64), path)
  | .object members, path => do
    let (style, path) ← Style.ofMembers members (path ++ [key])
    .ok (.style style, path.dropLast)
  | .null, path => .error (.entry (path ++ [key]) .null)
  | .boolean _, path => .error (.entry (path ++ [key]) .boolean)
  | .array _, path => .error (.entry (path ++ [key]) .array)
termination_by structural value => value

/-- The style with these members, and the keys around it. -/
def Style.ofMembers :
    List (String × Json) → List String → Except ShapeError (Style × List String)
  | [], path => .ok (.empty, path)
  | (key, value) :: rest, path => do
    let (entry, path) ← Entry.ofJson key value path
    let (style, path) ← Style.ofMembers rest path
    .ok (match entry with
      | .value v => .declare key v style
      | .style inner => .nest key inner style, path)
termination_by structural members => members
end

namespace Sheet

/-- The groups of a sheet, from the members of an object. Each must be an object itself. -/
def groupsOfMembers : List (String × Json) → Except ShapeError (Keyed String Style)
  | [] => .ok []
  | (selector, .object members) :: rest => do
    let (style, _) ← Style.ofMembers members [selector]
    let groups ← groupsOfMembers rest
    .ok ((selector, style) :: groups)
  | (selector, value) :: _ => .error (.group selector value.kind)

/-- The sheet in a JSON value whose keys stand once each, with an error for the first place where
the value has another shape. -/
def ofJson : Json → Except ShapeError Sheet
  | .object members => (groupsOfMembers members).map Sheet.mk
  | value => .error (.root value.kind)

end Sheet
end NestedStyles

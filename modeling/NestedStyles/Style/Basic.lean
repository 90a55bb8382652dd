import NestedStyles.Keyed
import NestedStyles.Numeric.Numeral

/-!
# Styles

A `Style` is the body of a rule: an ordered list of entries under keys, each a declaration (the
key is a property name) or a nested style (the key is a selector fragment). `Style.entries` and
`Style.ofEntries` convert to and from the plain entry list, and every operation is said through
them.
-/

namespace NestedStyles

/-- What is declared under a property name: a number, or a text that is not looked into. -/
inductive Value
  | number (value : Binary64)
  | text (content : String)
deriving DecidableEq, Repr

namespace Value

/-- How a value is written: text verbatim, a number as its numeral. -/
def written : Value → String
  | number x => x.text
  | text s => s

/-- Equality of values: numbers compare as numbers, and text never equals a number. -/
def agrees : Value → Value → Bool
  | number x, number y => x.agrees y
  | text s, text t => s == t
  | _, _ => false

end Value

/-- The body of a rule, entry by entry. Every constructor but `empty` puts one entry in front of the
rest. -/
inductive Style
  | empty
  | declare (name : String) (value : Value) (rest : Style)
  | nest (fragment : String) (inner rest : Style)
deriving DecidableEq, Repr

/-- What stands under a key of a style: a declared value or a nested style. -/
inductive Entry
  | value (value : Value)
  | style (style : Style)
deriving DecidableEq, Repr

namespace Style

instance : Inhabited Style := ⟨empty⟩

/-- The entries of a style in order, with their keys. -/
def entries : Style → Keyed String Entry
  | empty => []
  | declare name value rest => (name, .value value) :: rest.entries
  | nest fragment inner rest => (fragment, .style inner) :: rest.entries

/-- The style with the given entries, in their order. -/
def ofEntries : Keyed String Entry → Style
  | [] => empty
  | (name, .value value) :: rest => declare name value (ofEntries rest)
  | (fragment, .style inner) :: rest => nest fragment inner (ofEntries rest)

@[simp] theorem entries_ofEntries (es : Keyed String Entry) : (ofEntries es).entries = es := by
  induction es with
  | nil => rfl
  | cons e es ih =>
    obtain ⟨key, _ | _⟩ := e <;> simp [ofEntries, entries, ih]

@[simp] theorem ofEntries_entries (s : Style) : ofEntries s.entries = s := by
  induction s with
  | empty => rfl
  | declare name value rest ih => simp [entries, ofEntries, ih]
  | nest fragment inner rest _ ih => simp [entries, ofEntries, ih]

/-- Insert entries one after the other. A key that is repeated keeps its place and takes the last
entry. -/
def ofList (pairs : List (String × Entry)) : Style := ofEntries (Keyed.ofList pairs)

/-- Write an entry. A key that is there keeps its place, whatever kind of entry it had. -/
def insert (s : Style) (key : String) (entry : Entry) : Style :=
  ofEntries (s.entries.insert key entry)

/-- Insert an entry, and give back the one that it replaces. -/
def exchange (s : Style) (key : String) (entry : Entry) : Option Entry × Style :=
  let (replaced, entries) := s.entries.exchange key entry
  (replaced, ofEntries entries)

def get? (s : Style) (key : String) : Option Entry := s.entries.find? key

/-- The number of entries of a style itself. -/
def size (s : Style) : Nat := s.entries.length

/-- Whether a style has no entries. One without declarations may still have nested styles. -/
def isEmpty (s : Style) : Bool := s.entries.isEmpty

def keys (s : Style) : List String := s.entries.keys

def declaring (s : Style) (name : String) (value : Value) : Style := s.insert name (.value value)

def nesting (s : Style) (fragment : String) (inner : Style) : Style :=
  s.insert fragment (.style inner)

/-- The declarations of a style itself, in order. -/
def declarations : Style → List (String × Value)
  | empty => []
  | declare name value rest => (name, value) :: rest.declarations
  | nest _ _ rest => rest.declarations

/-- Every entry has an equal one under the same key of the other style. -/
def coveredBy : Style → Style → Bool
  | empty, _ => true
  | declare name value rest, other =>
    (match other.get? name with
      | some (.value v) => value.agrees v
      | _ => false) && rest.coveredBy other
  | nest fragment inner rest, other =>
    (match other.get? fragment with
      | some (.style s) => inner.size == s.size && inner.coveredBy s
      | _ => false) && rest.coveredBy other

/-- Equality of styles as maps, at every depth: the order of entries does not matter. -/
def agrees (s t : Style) : Bool := s.size == t.size && s.coveredBy t

end Style

end NestedStyles

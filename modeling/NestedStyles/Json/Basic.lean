import NestedStyles.Keyed
import NestedStyles.Numeric.Binary64

/-!
# JSON values

A value as it is written: members of an object stand in document order and may repeat a key.
`Json.merge` is the value it means, in which every key stands once.
-/

namespace NestedStyles

namespace Json

/-- Whole numbers keep their value; all others are the double they were read as. -/
inductive Number
  | integer (value : Int)
  | float (value : Binary64)
deriving DecidableEq, Repr

/-- The kinds of values that errors tell apart. -/
inductive Kind
  | null
  | boolean
  | number
  | string
  | array
  | object
deriving DecidableEq, Repr

def Kind.word : Kind → String
  | null => "null"
  | boolean => "boolean"
  | number => "number"
  | string => "string"
  | array => "array"
  | object => "object"

/-- The double closest to a number. -/
def Number.toBinary64 : Number → Binary64
  | integer i => .ofInt i
  | float x => x

end Json

/-- A JSON value as it is written, with the members of an object in document order. -/
inductive Json
  | null
  | boolean (value : Bool)
  | number (value : Json.Number)
  | string (value : String)
  | array (elements : List Json)
  | object (members : List (String × Json))

namespace Json

instance : Inhabited Json := ⟨null⟩

def kind : Json → Kind
  | null => .null
  | boolean _ => .boolean
  | number _ => .number
  | string _ => .string
  | array _ => .array
  | object _ => .object

mutual
/-- The value with each key once, at its first place, with its last value whole. -/
def merge : Json → Json
  | array elements => .array (mergeElements elements)
  | object members => .object (Keyed.ofList (mergeMembers members))
  | value => value
termination_by structural value => value

def mergeElements : List Json → List Json
  | [] => []
  | element :: rest => merge element :: mergeElements rest
termination_by structural elements => elements

/-- Merge every value, keeping repeated keys. -/
def mergeMembers : List (String × Json) → List (String × Json)
  | [] => []
  | (key, value) :: rest => (key, merge value) :: mergeMembers rest
termination_by structural members => members
end

end Json
end NestedStyles

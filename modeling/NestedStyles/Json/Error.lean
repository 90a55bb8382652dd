/-!
# Errors in JSON text

Why a text is not one JSON value, and where in the text that shows.
-/

namespace NestedStyles
namespace Json

/-- What is wrong where a text stops being JSON. -/
inductive Cause
  | endInValue
  | endInList
  | endInObject
  | endInString
  | expectedValue
  | expectedIdent
  | expectedColon
  | expectedCommaOrBracket
  | expectedCommaOrBrace
  | keyNotString
  | trailingComma
  | trailingCharacters
  | recursionLimit
  | invalidNumber
  | numberOutOfRange
  | controlCharacter
  | invalidEscape
  | endOfHexEscape
  | loneSurrogate
deriving DecidableEq, Repr

def Cause.message : Cause → String
  | endInValue => "EOF while parsing a value"
  | endInList => "EOF while parsing a list"
  | endInObject => "EOF while parsing an object"
  | endInString => "EOF while parsing a string"
  | expectedValue => "expected value"
  | expectedIdent => "expected ident"
  | expectedColon => "expected `:`"
  | expectedCommaOrBracket => "expected `,` or `]`"
  | expectedCommaOrBrace => "expected `,` or `\x7d`"
  | keyNotString => "key must be a string"
  | trailingComma => "trailing comma"
  | trailingCharacters => "trailing characters"
  | recursionLimit => "recursion limit exceeded"
  | invalidNumber => "invalid number"
  | numberOutOfRange => "number out of range"
  | controlCharacter => "control character (\\u0000-\\u001F) found while parsing a string"
  | invalidEscape => "invalid escape"
  | endOfHexEscape => "unexpected end of hex escape"
  | loneSurrogate => "lone leading surrogate in hex escape"

/-- A cause, and how many bytes of the text lie behind the place where it shows. -/
structure Failure where
  cause : Cause
  unread : Nat
deriving DecidableEq, Repr

/-- The bytes of a text in UTF-8. -/
def byteSize : List Char → Nat
  | [] => 0
  | c :: rest => c.utf8Size + byteSize rest

/-- A place between two bytes of a text: lines count from one, and the column is the number of
bytes since the line began. -/
structure Position where
  line : Nat
  column : Nat
deriving DecidableEq, Repr

/-- The place `bytes` bytes further into a text that starts at `start`. A place inside of a
character counts the bytes of it that are passed. -/
def Position.advance (start : Position) : List Char → Nat → Position
  | [], _ => start
  | _, 0 => start
  | c :: rest, bytes =>
    if c = '\n' then advance ⟨start.line + 1, 0⟩ rest (bytes - 1)
    else advance ⟨start.line, start.column + min bytes c.utf8Size⟩ rest (bytes - c.utf8Size)

/-- The place where a failure shows in the text it was found in. -/
def Failure.position (failure : Failure) (text : List Char) : Position :=
  Position.advance ⟨1, 0⟩ text (byteSize text - failure.unread)

end Json
end NestedStyles

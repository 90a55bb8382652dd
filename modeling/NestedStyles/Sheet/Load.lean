import NestedStyles.Json.Value
import NestedStyles.Sheet.Diagnostic

/-!
# Sheets from text

A sheet is read from a document that holds one JSON value. The value may be judged before or after
the end of the document is looked for: `Sheet.parse` wants the whole document to be JSON first,
`Sheet.decode` takes the value at its front, wants the shape, and then the end.

Where a sheet is part of a larger reading, the one who reads gives the value and words the error:
`Sheet.receive` passes on the message alone. `Sheet.decodeText` and `Sheet.decodeValue` are such
readings, whose errors are reports.
-/

namespace NestedStyles

/-- Place a failure in the text it was found in. -/
def located (text : List Char) (result : Except Json.Failure α) : Except LoadError α :=
  result.mapError fun failure => .malformed failure.cause (failure.position text)

/-- The value of a document that is JSON to its end, in which every key stands once. -/
def Json.parse (source : String) : Except LoadError Json := do
  let text := source.toList
  let (value, rest) ← located text (Json.readFirst text)
  located text (Json.readEnd rest)
  .ok value.merge

namespace Sheet

/-- The sheet of a JSON value that may repeat keys. -/
def ofDocument (value : Json) : Except LoadError Sheet :=
  (ofJson value.merge).mapError .misshapen

/-- The sheet of a document that is JSON to its end. -/
def parse (source : String) : Except LoadError Sheet := do
  let text := source.toList
  let (value, rest) ← located text (Json.readFirst text)
  located text (Json.readEnd rest)
  ofDocument value

/-- The sheet at the front of a document, with nothing but space behind it. -/
def decode (source : String) : Except LoadError Sheet := do
  let text := source.toList
  let (value, rest) ← located text (Json.readFirst text)
  let sheet ← ofDocument value
  located text (Json.readEnd rest)
  .ok sheet

/-- The sheet of a value that was read elsewhere, with an error made from the message. -/
def receive (error : String → ε) (value : Json) : Except ε Sheet :=
  (ofDocument value).mapError fun e => error e.diagnostic.message

/-- The sheet at the front of a document, read for someone who wants reports. -/
def decodeText (source : String) : Except Report Sheet := do
  let text := source.toList
  let (value, rest) ← (located text (Json.readFirst text)).mapError LoadError.report
  let sheet ← receive Report.ofMessage value
  (located text (Json.readEnd rest)).mapError LoadError.report
  .ok sheet

/-- The sheet of a value that was read elsewhere, for someone who wants reports. -/
def decodeValue (value : Json) : Except Report Sheet := receive Report.ofMessage value

end Sheet
end NestedStyles

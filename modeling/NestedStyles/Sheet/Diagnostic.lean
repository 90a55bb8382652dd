import NestedStyles.Json.Error
import NestedStyles.Sheet.Shape

/-!
# Diagnostics

What a user is told when a text is no sheet. A `Diagnostic` keeps the message and the place apart;
a `Report` is one line of text that ends in the place, if there is one. `Report.diagnostic` takes
the line apart again, at the last mark that could begin a place.
-/

namespace NestedStyles

/-- Why a text is no sheet: it is not JSON, or not of the right shape. -/
inductive LoadError
  | malformed (cause : Json.Cause) (position : Json.Position)
  | misshapen (error : ShapeError)
deriving DecidableEq, Repr

/-- A message and a place. Line and column are zero where there is none. -/
structure Diagnostic where
  message : String
  line : Nat
  column : Nat
deriving DecidableEq, Repr

namespace Diagnostic

/-- What is said where no place is known. -/
def ofMessage (message : String) : Diagnostic := ⟨message, 0, 0⟩

/-- A diagnostic on one line, with the zeros of a place that is not known. -/
def display (d : Diagnostic) : String :=
  s!"Style tree error at line {d.line}, column {d.column}: {d.message}"

end Diagnostic

/-- A line of text that tells the place itself, and that place. -/
structure Report where
  text : String
  line : Nat
  column : Nat
deriving DecidableEq, Repr

/-- A message where no place is known. A reading that gives reports takes a line and a column off
the end of a message, where they stand behind a mark; no message that it is given ends so
(`ShapeError.not_endsInPlace`). -/
def Report.ofMessage (message : String) : Report := ⟨message, 0, 0⟩

/-- The part of a text in front of the last occurrence of a mark. -/
def beforeLast (mark : List Char) : List Char → Option (List Char)
  | [] => none
  | c :: rest =>
    match beforeLast mark rest with
    | some front => some (c :: front)
    | none => if mark.isPrefixOf (c :: rest) then some [] else none

/-- What stands between a message and the place behind it. -/
def placeMark : String := " at line "

/-- The message in front of the place, with the place apart. -/
def Report.diagnostic (report : Report) : Diagnostic :=
  let text := report.text.toList
  let message := (beforeLast placeMark.toList text).getD text
  ⟨String.ofList message, report.line, report.column⟩

namespace LoadError

/-- What is said of a document that gives no sheet. What is not JSON is told by its message and its
place, which is what is left when its report is taken apart again
(`LoadError.diagnostic_report_malformed`). -/
def diagnostic : LoadError → Diagnostic
  | malformed cause position => ⟨cause.message, position.line, position.column⟩
  | misshapen error => .ofMessage error.message

/-- An error as a reading that gives reports words it: one line that ends in the place, if there is
one. -/
def report : LoadError → Report
  | malformed cause position =>
    ⟨cause.message ++ placeMark ++ s!"{position.line} column {position.column}",
      position.line, position.column⟩
  | misshapen error => ⟨error.message, 0, 0⟩

end LoadError
end NestedStyles

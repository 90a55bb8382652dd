import NestedStyles.Css.Output
import NestedStyles.Sheet.Load

/-!
# From source to style sheet

Load a document and flatten it, behind whatever text is there already.
-/

namespace NestedStyles

/-- The version that the program reports. -/
def version : String := "0.1.0"

/-- Append the flat style sheet of a document to a text. The log starts with the record of the
load; where loading fails nothing is reported. -/
def compileOnto (start source : String) : Except LoadError Output := do
  let sheet ← Sheet.parse source
  .ok (sheet.write ⟨start, [.loaded sheet.size]⟩)

/-- The flat style sheet of a document. -/
def compile (source : String) : Except LoadError String := (Sheet.parse source).map Sheet.css

/-- The flat style sheet of a value that is there already. -/
def compileValue (value : Json) : Except LoadError String := (Sheet.ofDocument value).map Sheet.css

/-- For a script, whose errors are texts: the whole diagnostic as one line. -/
def compileForScript (source : String) : Except String String :=
  (compile source).mapError fun e => e.diagnostic.display

end NestedStyles

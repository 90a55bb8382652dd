import NestedStyles.Css.Rule
import NestedStyles.Css.Selector
import NestedStyles.Log
import NestedStyles.Sheet.Basic

/-!
# Flattening

A style becomes one rule for its own declarations, if it has any, followed by the rules of its
nested styles in order, each under its composed selector. `Output` is the text so far and the
records so far; writing only ever appends to both.
-/

namespace NestedStyles

/-- What has been written and what has been reported so far. -/
structure Output where
  css : String
  log : List Record
deriving DecidableEq, Repr

/-- Append a rule, unless it has no declarations. -/
def Output.writeRule (out : Output) (rule : Rule) : Output :=
  if rule.declarations.isEmpty then out
  else ⟨out.css ++ rule.text, out.log ++ [.rule rule.selector rule.declarations.length]⟩

namespace Style

/-- Append the rules of the nested styles. -/
def writeNested (parent : Option String) : Style → Output → Output
  | empty, out => out
  | declare _ _ rest, out => rest.writeNested parent out
  | nest fragment inner rest, out =>
    let selector := Selector.compose fragment parent
    rest.writeNested parent
      (inner.writeNested (some selector) (out.writeRule ⟨selector, inner.declarations⟩))

/-- Append the rules of a style under a parent selector, which stands in front of the style's own
declarations as it is. -/
def write (s : Style) (parent : Option String) (out : Output) : Output :=
  s.writeNested parent (out.writeRule ⟨parent.getD "", s.declarations⟩)

/-- The rules of a style as text. -/
def css (s : Style) (parent : Option String) : String := (s.write parent ⟨"", []⟩).css

end Style

namespace Sheet

/-- Append the rules of every group, then report their number and size. -/
def write (t : Sheet) (out : Output) : Output :=
  let written := t.groups.foldl (fun out group => group.2.write (some group.1) out) out
  { written with
    log := written.log ++ [.flattened t.size (written.css.utf8ByteSize - out.css.utf8ByteSize)] }

/-- The flat style sheet. -/
def css (t : Sheet) : String := (t.write ⟨"", []⟩).css

end Sheet
end NestedStyles

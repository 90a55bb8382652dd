import NestedStyles.Style.Basic

/-!
# Rules

A flat rule is a selector and its declarations. Everything in it is written verbatim, and nothing
is put between two declarations or two rules.
-/

namespace NestedStyles

/-- The text of one declaration. -/
def declarationText (declaration : String × Value) : String :=
  declaration.1 ++ ":" ++ declaration.2.written ++ ";"

/-- A selector and the declarations under it, as they are written. -/
structure Rule where
  selector : String
  declarations : List (String × Value)
deriving DecidableEq, Repr

/-- `selector{name:value;…}` -/
def Rule.text (rule : Rule) : String :=
  rule.selector ++ "\x7b" ++ String.join (rule.declarations.map declarationText) ++ "\x7d"

end NestedStyles

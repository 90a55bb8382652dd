import NestedStyles.Text.Blank

/-!
# Selectors

A nested selector is written relative to the one around it: an `&` stands for the parent, and a
fragment without one is a descendant of it.
-/

namespace NestedStyles
namespace Selector

/-- The text with its first `&` replaced by the parent, if it has one. -/
def substitute (parent : List Char) : List Char → Option (List Char)
  | [] => none
  | c :: rest =>
    if c = '&' then some (parent ++ rest) else (substitute parent rest).map (c :: ·)

/-- The selector of a fragment under a parent, both trimmed. Only the first `&` is replaced, and
nothing is trimmed afterwards. -/
def join (parent fragment : List Char) : List Char :=
  (substitute (trim parent) (trim fragment)).getD (trim parent ++ ' ' :: trim fragment)

/-- The selector of a fragment under a parent. No parent is the empty one. -/
def compose (fragment : String) (parent : Option String) : String :=
  String.ofList (join (parent.getD "").toList fragment.toList)

end Selector
end NestedStyles

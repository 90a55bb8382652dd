import NestedStyles.Sheet.Basic

/-!
# Nodes of a style

A style is a tree whose nodes are itself and the styles nested in it. `Style.nodes` lists them in
preorder, each with the keys that lead to it. `Style.inner_eq_flatMap` says the order without
recursion on entries: a child comes in the order of its parent's entries, with all that is inside
it right behind it.
-/

namespace NestedStyles

/-- Something in a nested document, and the keys that lead to it from the outside in. -/
structure Located (α : Type) where
  path : List String
  content : α
deriving DecidableEq, Repr

namespace Located

/-- The same thing seen from one level further out. -/
def under (key : String) (place : Located α) : Located α :=
  { place with path := key :: place.path }

@[simp] theorem path_under (key : String) (place : Located α) :
    (place.under key).path = key :: place.path := rfl

@[simp] theorem content_under (key : String) (place : Located α) :
    (place.under key).content = place.content := rfl

end Located

namespace Entry

/-- The value of an entry that declares one. -/
def value? : Entry → Option Value
  | value v => some v
  | style _ => none

/-- The style of an entry that nests one. -/
def style? : Entry → Option Style
  | value _ => none
  | style s => some s

end Entry

namespace Style

/-- The declarations of a style are what its entries declare, in order. -/
theorem declarations_eq_filterMap (s : Style) :
    s.declarations = s.entries.filterMap fun entry => entry.2.value?.map (entry.1, ·) := by
  induction s with
  | empty => rfl
  | declare name value rest ih => simp [declarations, entries, Entry.value?, ih]
  | nest fragment inner rest _ ih => simp [declarations, entries, Entry.value?, ih]

/-- The styles nested directly in a style, in the order of its entries. -/
def children (s : Style) : List (String × Style) :=
  s.entries.filterMap fun entry => entry.2.style?.map (entry.1, ·)

@[simp] theorem children_empty : children empty = [] := rfl

@[simp] theorem children_declare (name : String) (value : Value) (rest : Style) :
    children (declare name value rest) = children rest := by
  simp [children, entries, Entry.style?]

@[simp] theorem children_nest (fragment : String) (inner rest : Style) :
    children (nest fragment inner rest) = (fragment, inner) :: children rest := by
  simp [children, entries, Entry.style?]

/-- The styles nested in a style at every depth, in preorder. -/
def inner : Style → List (Located Style)
  | empty => []
  | declare _ _ rest => rest.inner
  | nest fragment child rest =>
    (⟨[], child⟩ :: child.inner).map (.under fragment) ++ rest.inner

/-- A style and the styles nested in it at every depth, in preorder. -/
def nodes (s : Style) : List (Located Style) := ⟨[], s⟩ :: s.inner

/-- The styles inside are those in the nested styles, one after the other. -/
theorem inner_eq_flatMap (s : Style) :
    s.inner = s.children.flatMap fun child => child.2.nodes.map (.under child.1) := by
  induction s with
  | empty => rfl
  | declare name value rest ih => simp [inner, ih]
  | nest fragment child rest _ ih => simp [inner, nodes, ih]

theorem declarations_ofEntries_append (front back : Keyed String Entry) :
    (ofEntries (front ++ back)).declarations =
      (ofEntries front).declarations ++ (ofEntries back).declarations := by
  simp only [declarations_eq_filterMap, entries_ofEntries, List.filterMap_append]

theorem inner_ofEntries_append (front back : Keyed String Entry) :
    (ofEntries (front ++ back)).inner = (ofEntries front).inner ++ (ofEntries back).inner := by
  simp only [inner_eq_flatMap, children, entries_ofEntries, List.filterMap_append,
    List.flatMap_append]

end Style

namespace Sheet

/-- The styles of a sheet at every depth, in preorder, group by group. -/
def nodes (t : Sheet) : List (Located Style) :=
  t.groups.flatMap fun group => group.2.nodes.map (.under group.1)

theorem nodes_cons (group : String × Style) (groups : Keyed String Style) :
    nodes ⟨group :: groups⟩ = group.2.nodes.map (.under group.1) ++ nodes ⟨groups⟩ :=
  List.flatMap_cons

end Sheet
end NestedStyles

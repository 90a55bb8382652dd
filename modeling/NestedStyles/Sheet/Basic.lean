import NestedStyles.Style.Basic

/-!
# Sheets

A `Sheet` is an ordered list of styles under their top-level selectors.
-/

namespace NestedStyles

/-- A style sheet before flattening: rule groups under their top-level selectors. -/
structure Sheet where
  groups : Keyed String Style
deriving DecidableEq, Repr

namespace Sheet

def empty : Sheet := ⟨[]⟩

/-- Insert groups one after the other. A selector that is repeated keeps its place and takes the
last style. -/
def ofList (pairs : List (String × Style)) : Sheet := ⟨Keyed.ofList pairs⟩

/-- Write a group. A selector that is there keeps its place. -/
def insert (t : Sheet) (selector : String) (style : Style) : Sheet :=
  ⟨t.groups.insert selector style⟩

/-- Insert a group, and give back the style that it replaces. -/
def exchange (t : Sheet) (selector : String) (style : Style) : Option Style × Sheet :=
  let (replaced, groups) := t.groups.exchange selector style
  (replaced, ⟨groups⟩)

def get? (t : Sheet) (selector : String) : Option Style := t.groups.find? selector

def size (t : Sheet) : Nat := t.groups.length

def isEmpty (t : Sheet) : Bool := t.groups.isEmpty

def keys (t : Sheet) : List String := t.groups.keys

/-- Equality of sheets as maps: the order of groups does not matter. -/
def agrees (t u : Sheet) : Bool :=
  t.size == u.size && t.groups.all fun group =>
    match u.get? group.1 with
    | some style => group.2.agrees style
    | none => false

end Sheet

end NestedStyles

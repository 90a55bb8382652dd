import NestedStyles.CommandLine.Request

/-!
# Output paths

Where a build writes. Next to its input, the extension of the last name in the path gives way to
`css`; the rest of the path stays as it is written.
-/

namespace NestedStyles
namespace CommandLine

/-- A name without its extension, which begins at the last dot, if that dot is not the first
character. -/
def stem? (name : List Char) : Option (List Char) :=
  match name.reverse.dropWhile (· ≠ '.') with
  | _ :: c :: before => some (c :: before).reverse
  | _ => none

/-- The name of the style sheet next to an input. From a stem that is a single dot no name can be
made: cutting the extension leaves the name of the folder above. -/
def styleSheetName (name : List Char) : List Char :=
  match stem? name with
  | some ['.'] => ['.', '.']
  | some stem => stem ++ ".css".toList
  | none => name ++ ".css".toList

/-- The path of the style sheet next to an input: what stands behind the last slash gives way to the
name of the style sheet. -/
def besidePath (path : String) : String :=
  let isInName := fun c => decide (c ≠ '/')
  let backward := path.toList.reverse
  String.ofList
    ((backward.dropWhile isInName).reverse ++
      styleSheetName (backward.takeWhile isInName).reverse)

/-- The file that a build of `input` writes, if it writes one. -/
def Target.path? (input : String) : Target → Option String
  | beside => some (besidePath input)
  | file path => some path
  | standardOutput => none

end CommandLine
end NestedStyles

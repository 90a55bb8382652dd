import NestedStyles.CommandLine.Run

/-!
# File trees

A `FileTree` holds the folders and files below the folder in which a program runs, each under the
names that lead to it. Nothing is known of what lies outside: there, only folders can be named.
`World.host` runs a request on a file tree and on a standard output that may be full.
-/

namespace NestedStyles
namespace CommandLine

/-- The names from the root to a place. -/
abbrev Names := List String

/-- The folders and the files below the folder of a program, with what the files hold. There are no
links, so what is written under one name is seen under no other, and no permissions, so whatever is
there can be read and written. -/
structure FileTree where
  folders : List Names
  files : Keyed Names ByteArray

/-- Where a path leads in a file tree. -/
inductive Place
  | folder
  | file (names : Names)
  /-- A name in a folder, under which there is nothing. -/
  | vacant (names : Names)
  /-- A name with slashes behind it, under which there is no folder. -/
  | noFolder
  | blocked (error : AccessError)
deriving DecidableEq, Repr

/-- The parts of a path between its slashes. -/
def segments : List Char → List (List Char)
  | [] => [[]]
  | c :: rest =>
    if c = '/' then [] :: segments rest
    else
      match segments rest with
      | [] => [[c]]
      | segment :: others => (c :: segment) :: others

namespace FileTree

/-- The tree in which there is nothing. Its root is a folder all the same. -/
def empty : FileTree := ⟨[], []⟩

/-- Make a folder and those above it. -/
def addFolder (tree : FileTree) (names : Names) : FileTree :=
  { tree with
    folders := tree.folders ++ (List.range names.length).map fun n => names.take (n + 1) }

/-- Make a file and the folders above it. -/
def addFile (tree : FileTree) (names : Names) (content : ByteArray) : FileTree :=
  let tree := tree.addFolder names.dropLast
  { tree with files := tree.files.insert names content }

/-- Follow the parts of a path from a folder, `none` being outside of the tree. -/
def walk (tree : FileTree) : Option Names → List (List Char) → Place
  | _, [] => .folder
  | here, segment :: rest =>
    if segment = [] ∨ segment = ['.'] then tree.walk here rest
    else if segment = ['.', '.'] then
      match here with
      | none | some [] => tree.walk none rest
      | some names => tree.walk (some names.dropLast) rest
    else
      match here with
      | none => .blocked .notFound
      | some above =>
        let names := above ++ [String.ofList segment]
        let isFile := (tree.files.find? names).isSome
        if names ∈ tree.folders then tree.walk (some names) rest
        else if rest = [] then if isFile then .file names else .vacant names
        else if rest.all List.isEmpty then .noFolder
        else .blocked (if isFile then .notFolder else .notFound)

/-- Follow a path from the root of the tree, or from outside if it begins with a slash. -/
def place (tree : FileTree) (path : String) : Place :=
  match path.toList with
  | [] => .blocked .notFound
  | '/' :: rest => tree.walk none (segments rest)
  | path => tree.walk (some []) (segments path)

/-- What is read under a path. A folder and a file that is not UTF-8 are there but cannot be read;
whatever else is no file is missing. -/
def source (tree : FileTree) (path : String) : Source :=
  match tree.place path with
  | .folder => .unreadable .isFolder
  | .file names =>
    match (tree.files.find? names).bind String.fromUTF8? with
    | some content => .text content
    | none => .unreadable .notText
  | .vacant _ | .noFolder | .blocked _ => .missing

/-- Write a file under a path, over what it holds or as a new file in a folder that is there. -/
def save (tree : FileTree) (path content : String) : Except AccessError FileTree :=
  match tree.place path with
  | .file names | .vacant names =>
    .ok { tree with files := tree.files.insert names content.toUTF8 }
  | .folder | .noFolder => .error .isFolder
  | .blocked error => .error error

end FileTree

/-- A file tree and a standard output. -/
structure World where
  tree : FileTree
  /-- Whether standard output takes nothing more. -/
  full : Bool
  printed : String

namespace World

/-- The file tree and the standard output of a world. What is full still takes an empty text. -/
def host : Host (StateM World) where
  look path := do
    return (← get).tree.source path
  save path content := do
    match (← get).tree.save path content with
    | .ok tree =>
      modify fun world => { world with tree }
      return .ok ()
    | .error error => return .error error
  print text := do
    if (← get).full && !text.isEmpty then
      return .error .noSpace
    else
      modify fun world => { world with printed := world.printed ++ text }
      return .ok ()

/-- Run arguments in a world: how that ends, and the world afterwards. -/
def run (world : World) (arguments : List String) : Exit × World :=
  StateT.run (m := Id) (runArguments host arguments) world

end World
end CommandLine
end NestedStyles

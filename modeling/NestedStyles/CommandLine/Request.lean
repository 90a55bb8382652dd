/-!
# Requests

What a list of arguments asks for. Arguments are taken from left to right, and the first one that
asks for help, or that cannot be right where it stands, decides. `none` is a misuse.
-/

namespace NestedStyles
namespace CommandLine

/-- What help is asked for: the program, or one of its commands. -/
inductive Topic
  | program
  | build
  | check
  | help
deriving DecidableEq, Repr

/-- Where a build puts the style sheet. -/
inductive Target
  /-- Next to the input, under its name with another extension. -/
  | beside
  | file (path : String)
  | standardOutput
deriving DecidableEq, Repr

/-- What the program does with an input. -/
inductive Command
  | build (path : String) (target : Target)
  | check (path : String)
deriving DecidableEq, Repr

/-- What arguments ask for, where they ask for something. -/
inductive Request
  | help (topic : Topic)
  | version
  | perform (command : Command)
deriving DecidableEq, Repr

/-- How an argument looks, before it is known what it stands for: an option by its name, with the
value behind an equals sign if there is one, an option by its letter, with what is attached, or
neither. -/
inductive Argument
  /-- A lone `--`, behind which no argument is an option. -/
  | separator
  | long (name : List Char) (value : Option (List Char))
  | short (letter : Char) (attached : List Char)
  | plain
deriving DecidableEq, Repr

/-- The shape of an argument. A lone `-` is plain. -/
def Argument.ofString (argument : String) : Argument :=
  match argument.toList with
  | ['-', '-'] => .separator
  | '-' :: '-' :: option =>
    .long (option.takeWhile (· ≠ '='))
      (match option.dropWhile (· ≠ '=') with
        | [] => none
        | _ :: value => some value)
  | '-' :: letter :: attached => .short letter attached
  | _ => .plain

/-- Whether an argument asks for help. A letter asks for it whatever is attached. -/
def Argument.asksHelp : Argument → Bool
  | long name value => name = "help".toList && value.isNone
  | short letter _ => letter = 'h'
  | _ => false

/-- Whether an argument asks for the version. -/
def Argument.asksVersion : Argument → Bool
  | long name value => name = "version".toList && value.isNone
  | short letter _ => letter = 'V'
  | _ => false

/-- The value attached to a letter, which an equals sign may set off. -/
def attachedValue : List Char → String
  | '=' :: value => String.ofList value
  | value => String.ofList value

/-- Whether an argument can be the value of the option before it. -/
def isValue (argument : String) : Bool :=
  match Argument.ofString argument with
  | .plain => true
  | _ => false

/-- Fill a place that can be filled once. -/
def fill (place : Option α) (value : α) : Option (Option α) :=
  match place with
  | none => some (some value)
  | some _ => none

/-- What the arguments of a build have given so far. -/
structure BuildArguments where
  path : Option String := none
  output : Option String := none
  toStandardOutput : Bool := false
deriving DecidableEq, Repr

namespace BuildArguments

/-- Take an argument for the input of a build, which has one. -/
def withPath (given : BuildArguments) (path : String) : Option BuildArguments := do
  let path ← fill given.path path
  some { given with path }

/-- Take an argument for the output of a build, which can be given once. -/
def withOutput (given : BuildArguments) (output : String) : Option BuildArguments := do
  let output ← fill given.output output
  some { given with output }

/-- Take the option to print the style sheet, which can be given once. -/
def withStandardOutput (given : BuildArguments) : Option BuildArguments :=
  if given.toStandardOutput then none else some { given with toStandardOutput := true }

/-- The build that the arguments ask for. It has an input, and a file and standard output exclude
each other. -/
def request (given : BuildArguments) : Option Request := do
  let path ← given.path
  match given.output, given.toStandardOutput with
  | none, false => some (.perform (.build path .beside))
  | some file, false => some (.perform (.build path (.file file)))
  | none, true => some (.perform (.build path .standardOutput))
  | some _, true => none

/-- Take the arguments of a build one by one. Options and the input may stand in any order, an
option finds its value attached or in the next argument, and behind a separator only the input can
stand. -/
def takeAll (given : BuildArguments) : List String → Option Request
  | [] => given.request
  | argument :: rest =>
    let shape := Argument.ofString argument
    if shape.asksHelp then some (.help .build)
    else
      match shape with
      | .separator => do
        let given ← rest.foldlM withPath given
        given.request
      | .plain => do
        let given ← given.withPath argument
        given.takeAll rest
      | .short letter attached =>
        if letter ≠ 'o' then none
        else if attached.isEmpty then
          match rest with
          | value :: rest => do
            let given ← if isValue value then given.withOutput value else none
            given.takeAll rest
          | [] => none
        else do
          let given ← given.withOutput (attachedValue attached)
          given.takeAll rest
      | .long name value =>
        if name = "stdout".toList && value.isNone then do
          let given ← given.withStandardOutput
          given.takeAll rest
        else if name ≠ "output".toList then none
        else
          match value, rest with
          | some value, rest => do
            let given ← given.withOutput (String.ofList value)
            given.takeAll rest
          | none, value :: rest => do
            let given ← if isValue value then given.withOutput value else none
            given.takeAll rest
          | none, [] => none

end BuildArguments

/-- Take the arguments of a check one by one: there is one path, and no option but help. -/
def checkRequest (path : Option String) : List String → Option Request
  | [] => path.map fun path => .perform (.check path)
  | argument :: rest =>
    let shape := Argument.ofString argument
    if shape.asksHelp then some (.help .check)
    else
      match shape with
      | .separator => do
        let path ← rest.foldlM fill path
        path.map fun path => .perform (.check path)
      | .plain => do
        let path ← fill path argument
        checkRequest path rest
      | _ => none

/-- The topic that is named behind `help`. -/
def helpRequest : List String → Option Request
  | [] => some (.help .program)
  | ["build"] => some (.help .build)
  | ["check"] => some (.help .check)
  | ["help"] => some (.help .help)
  | _ => none

/-- The request in a list of arguments. The first one names the command or asks for help or the
version, and then no other is looked at. -/
def Request.ofArguments : List String → Option Request
  | [] => none
  | argument :: rest =>
    let shape := Argument.ofString argument
    if shape.asksHelp then some (.help .program)
    else if shape.asksVersion then some .version
    else if argument = "build" then BuildArguments.takeAll {} rest
    else if argument = "check" then checkRequest none rest
    else if argument = "help" then helpRequest rest
    else none

end CommandLine
end NestedStyles

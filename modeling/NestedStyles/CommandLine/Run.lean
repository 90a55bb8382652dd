import NestedStyles.CommandLine.Help
import NestedStyles.CommandLine.OutputPath

/-!
# Running a request

A request reads at most one file and then writes at most once, to a file or to standard output.
What it runs on is a `Host`: the three things it can be asked, in any monad.
-/

namespace NestedStyles
namespace CommandLine

/-- Why a file or the standard output cannot be read or written. -/
inductive AccessError
  | notFound
  | notFolder
  | isFolder
  | noSpace
  | notText
  | other (message : String)
deriving DecidableEq, Repr

def AccessError.message : AccessError → String
  | notFound => "No such file or directory (os error 2)"
  | notFolder => "Not a directory (os error 20)"
  | isFolder => "Is a directory (os error 21)"
  | noSpace => "No space left on device (os error 28)"
  | notText => "stream did not contain valid UTF-8"
  | other message => message

/-- What is found under a path: nothing, something that cannot be read, or a text. -/
inductive Source
  | missing
  | unreadable (error : AccessError)
  | text (content : String)
deriving DecidableEq, Repr

/-- What a request can ask of the machine that it runs on: to look at a file, to save one and to
print. -/
structure Host (m : Type → Type) where
  look : (path : String) → m Source
  save : (path content : String) → m (Except AccessError Unit)
  print : (text : String) → m (Except AccessError Unit)

/-- How a run ends: its exit status, and its last words. -/
structure Exit where
  status : UInt32
  stderr : String
deriving DecidableEq, Repr

namespace Exit

/-- The end of a run that has printed what it was asked for. -/
def silent : Exit := ⟨0, ""⟩

/-- The end of a run that says what it has done. -/
def success (message : String) : Exit := ⟨0, message ++ "\n"⟩

/-- The end of a run that says why it has failed. -/
def failure (message : String) : Exit := ⟨1, message ++ "\n"⟩

/-- The arguments make no request. Only the status stands for the program, which words every misuse
in its own way; the text here is in the place of all of them. -/
def misuse : Exit := ⟨2, "Usage: nestcss <COMMAND>\n"⟩

end Exit

/-- A diagnostic about a file, with the place if there is one. -/
def diagnosticLine (path : String) (d : Diagnostic) : String :=
  if 0 < d.line then s!"{path}:{d.line}:{d.column}: {d.message}" else s!"{path}: {d.message}"

/-- The sheet in what was found under a path. -/
def load (path : String) : Source → Except Exit Sheet
  | .missing => .error (.failure s!"Error: file not found: {path}")
  | .unreadable error => .error (.failure s!"Error reading {path}: {error.message}")
  | .text content =>
    (Sheet.parse content).mapError fun e => .failure (diagnosticLine path e.diagnostic)

variable {m : Type → Type} [Monad m]

/-- Put a style sheet where the target says, and say so if that is a file. -/
def deliver (host : Host m) (input css : String) (target : Target) : m Exit :=
  match target.path? input with
  | some path => do
    match ← host.save path css with
    | .ok () => pure (.success s!"Built: {path}")
    | .error error => pure (.failure s!"Error writing {path}: {error.message}")
  | none => do
    match ← host.print css with
    | .ok () => pure .silent
    | .error error => pure (.failure s!"Error writing to stdout: {error.message}")

/-- Load the input of a command, then build from it or report that it is right. What cannot be
loaded ends the run before anything is written. -/
def Command.run (host : Host m) : Command → m Exit
  | build path target => do
    match load path (← host.look path) with
    | .ok sheet => deliver host path sheet.css target
    | .error exit => pure exit
  | check path => do
    match load path (← host.look path) with
    | .ok _ => pure (.success s!"OK: {path}")
    | .error exit => pure exit

/-- Help and version are printed as far as they can be. -/
def Request.run (host : Host m) : Request → m Exit
  | help topic => do
    let _ ← host.print topic.text
    pure .silent
  | version => do
    let _ ← host.print versionText
    pure .silent
  | perform command => command.run host

/-- Run the request in the arguments, if they make one. -/
def runArguments (host : Host m) (arguments : List String) : m Exit :=
  match Request.ofArguments arguments with
  | some request => request.run host
  | none => pure .misuse

end CommandLine
end NestedStyles

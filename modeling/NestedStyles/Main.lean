import NestedStyles.CommandLine.Run

/-!
# The program

The command line on the machine it runs on.
-/

namespace NestedStyles
namespace CommandLine

/-- The error that the runtime reports, as far as a request tells errors apart. -/
def AccessError.ofError : IO.Error → AccessError
  | .noFileOrDirectory .. => .notFound
  | .inappropriateType _ code _ => if code = 20 || code = -20 then .notFolder else .isFolder
  | .resourceExhausted .. => .noSpace
  | error => .other (toString error)

/-- Run an action on files, keeping its failure as a value. -/
def attempt (action : IO α) : IO (Except AccessError α) := do
  try
    return .ok (← action)
  catch error =>
    return .error (.ofError error)

/-- The files and the standard output of the machine. A path that leads through something other
than a folder leads nowhere. -/
def machine : Host IO where
  look path := do
    match ← attempt (IO.FS.readBinFile path) with
    | .ok bytes =>
      match String.fromUTF8? bytes with
      | some content => return .text content
      | none => return .unreadable .notText
    | .error .notFound | .error .notFolder => return .missing
    | .error error => return .unreadable error
  save path content := attempt (IO.FS.writeFile path content)
  print text := attempt do
    let stdout ← IO.getStdout
    stdout.putStr text
    stdout.flush

end CommandLine
end NestedStyles

open NestedStyles CommandLine in
/-- Run the arguments on the machine, then say the last words and end with the status. -/
def main (arguments : List String) : IO UInt32 := do
  let exit ← runArguments machine arguments
  (← IO.getStderr).putStr exit.stderr
  return exit.status

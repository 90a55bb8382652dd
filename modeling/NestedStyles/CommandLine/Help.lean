import NestedStyles.CommandLine.Request
import NestedStyles.Compile

/-!
# Help

What is printed when help or the version is asked for.
-/

namespace NestedStyles
namespace CommandLine

/-- Texts on a line each, the last one included. -/
def lines (texts : List String) : String := String.join (texts.map (· ++ "\n"))

def Topic.text : Topic → String
  | program => lines [
      "Compile nested JSON style trees to flat CSS",
      "",
      "Usage: nestcss <COMMAND>",
      "",
      "Commands:",
      "  build  Compile a JSON style tree to a .css file",
      "  check  Check a JSON style tree for shape errors without writing output",
      "  help   Print this message or the help of the given subcommand(s)",
      "",
      "Options:",
      "  -h, --help     Print help",
      "  -V, --version  Print version"]
  | build => lines [
      "Compile a JSON style tree to a .css file",
      "",
      "Usage: nestcss build [OPTIONS] <PATH>",
      "",
      "Arguments:",
      "  <PATH>  Input .json file",
      "",
      "Options:",
      "  -o, --output <OUTPUT>  Output file (defaults to <stem>.css next to the input)",
      "      --stdout           Print the CSS instead of writing a file",
      "  -h, --help             Print help"]
  | check => lines [
      "Check a JSON style tree for shape errors without writing output",
      "",
      "Usage: nestcss check <PATH>",
      "",
      "Arguments:",
      "  <PATH>  Input .json file",
      "",
      "Options:",
      "  -h, --help  Print help"]
  | help => lines [
      "Print this message or the help of the given subcommand(s)",
      "",
      "Usage: nestcss help [COMMAND]...",
      "",
      "Arguments:",
      "  [COMMAND]...  Print help for the subcommand(s)"]

def versionText : String := s!"nestcss {version}\n"

end CommandLine
end NestedStyles

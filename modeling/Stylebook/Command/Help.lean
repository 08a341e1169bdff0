import Stylebook.Command
import Stylebook.Text.Lines

/-! # Help texts -/

namespace Stylebook.Topic

def about : Topic → String
  | program => "Renderer for trait-driven citation styles"
  | list => "List the built-in styles"
  | render => "Render records with a style"
  | describe => "Show the compiled items and rules of a style"
  | help => "Print this message or the help of the given subcommand(s)"

def usage : Topic → String
  | program => "styleguide [OPTIONS] <COMMAND>"
  | list => "styleguide list [OPTIONS]"
  | render => "styleguide render [OPTIONS] <STYLE> <RECORDS>"
  | describe => "styleguide show [OPTIONS] <STYLE>"
  | help => "styleguide help [COMMAND]..."

def commandLines : List String :=
  ["list    List the built-in styles",
    "render  Render records with a style",
    "show    Show the compiled items and rules of a style",
    "help    Print this message or the help of the given subcommand(s)"]

def argumentLines : Topic → List String
  | render => ["<STYLE>    Id of the style, as shown by `list`",
      "<RECORDS>  Path to the records file (YAML/JSON, one record or a list)"]
  | describe => ["<STYLE>  Id of the style, as shown by `list`"]
  | help => ["[COMMAND]...  Print help for the subcommand(s)"]
  | _ => []

def configLine : String :=
  "    --config <CONFIG>  Guide metadata file (YAML/JSON) overriding the built-in guide's"

def jsonLine : String := "    --json             Output as JSON"

def helpLine : String := "-h, --help             Print help"

def optionLines : Topic → List String
  | program => [configLine, helpLine, "-V, --version          Print version"]
  | list | describe => [configLine, jsonLine, helpLine]
  | render => [configLine,
      "-f, --format <FORMAT>  Output format [default: html] [possible values: html, plain]",
      jsonLine, helpLine]
  | help => []

/-- A headed list of lines, after an empty line. Without lines there is no heading. -/
def block (heading : String) (lines : List String) : List String :=
  if lines.isEmpty then [] else ["", heading] ++ lines.map ("  " ++ ·)

def helpText (t : Topic) : String :=
  Text.unlines ([t.about, "", "Usage: " ++ t.usage] ++
    block "Commands:" (if t = program then commandLines else []) ++
    block "Arguments:" t.argumentLines ++ block "Options:" t.optionLines)

def versionText : String := "styleguide 0.1.0\n"

end Stylebook.Topic

import Lexis.CommandLine.Environment
import Lexis.CommandLine.Parameter
import Lexis.Terminal

/-! The texts of the notices. -/
namespace Lexis.CommandLine

def helpColumn : Nat := 21

def hang (indent : Nat) (text : String) : String :=
  String.ofList <| text.toList.flatMap fun c =>
    if c = '\n' then '\n' :: List.replicate indent ' ' else [c]

/-- What the help says of a variable, up to the option after it, which stands behind `margin`. That
option is set in bold, so a sequence for the terminal that the value leaves open ends there. -/
def Environment.shown (key : String) (value : Option String) (margin : String) : String :=
  Terminal.plain ("[env: " ++ key ++ "=" ++ hang helpColumn (value.getD "") ++ "]\n" ++ margin)

def helpText (env : Environment) : String :=
  String.join [
    "Tokenize a Dium source file\n",
    "\n",
    "Usage: dium [OPTIONS] <FILE>\n",
    "\n",
    "Arguments:\n",
    "  <FILE>  Source file to tokenize\n",
    "\n",
    "Options:\n",
    "  -n, --name <NAME>  Name used for the source in diagnostics (default: the file name) ",
    Environment.shown Environment.nameVariable env.name "  ",
    "-k, --kinds        Print one token per line with its position and kind\n",
    "  -v, --verbose      Enable verbose output ",
    Environment.shown Environment.verboseVariable env.verbose "      ",
    "--no-color     Disable color output ",
    Environment.shown Environment.noColourVariable env.noColour "  ",
    "-h, --help         Print help\n",
    "  -V, --version      Print version\n"]

def Notice.text (env : Environment) : Notice → String
  | help => helpText env
  | version => "dium 0.1.0\n"

end Lexis.CommandLine

import Lexis.CommandLine.Arguments
import Lexis.CommandLine.Notice
import Lexis.CommandLine.Run

/-! What the program answers to a command line. -/
namespace Lexis.CommandLine

/-- The answer where no tokens are asked for. A notice that is lost is no failure. -/
def Stop.answer (env : Environment) : Stop → Answer
  | fault f => do
    Console.complain f.line
    return 2
  | notice n => do
    try Console.print (n.text env) catch _ => pure ()
    return 0

def answer (arguments : List String) (env : Environment)
    (read : Path → Except ReadFault (List UInt8)) : Answer :=
  match Settings.ofArguments arguments env with
  | .error stop => stop.answer env
  | .ok settings => settings.answer (read settings.path)

end Lexis.CommandLine

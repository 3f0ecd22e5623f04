import Lexis.CommandLine.Parameter
import Lexis.Terminal

/-! What can be wrong with a command line. -/
namespace Lexis.CommandLine

inductive UsageFault where
  /-- There is no such option, or a file has been given before. -/
  | unexpectedArgument (argument : String)
  /-- A value is attached to an option that takes none. -/
  | unexpectedValue (value : String) (parameter : Parameter)
  | missingValue (parameter : Parameter)
  | invalidValue (value : String) (parameter : Parameter)
  /-- An option is given twice. -/
  | repeated (parameter : Parameter)
  | missingFile
deriving DecidableEq, Repr

namespace UsageFault

/-- The fault in words. What comes from the user is shown without sequences for the terminal. It may
still break lines. -/
def message : UsageFault → String
  | unexpectedArgument argument => "unexpected argument '" ++ Terminal.plain argument ++ "' found"
  | unexpectedValue value parameter =>
    "unexpected value '" ++ Terminal.plain value ++ "' for '" ++ parameter.label
      ++ "' found; no more were expected"
  | missingValue parameter =>
    "a value is required for '" ++ parameter.label ++ "' but none was supplied"
  | invalidValue value parameter =>
    "invalid value '" ++ Terminal.plain value ++ "' for '" ++ parameter.label ++ "'"
  | repeated parameter =>
    "the argument '" ++ parameter.label ++ "' cannot be used multiple times"
  | missingFile => "the following required arguments were not provided:"

def line (f : UsageFault) : String :=
  "error: " ++ String.ofList (f.message.toList.takeWhile (· ≠ '\n')) ++ "\n"

end UsageFault

end Lexis.CommandLine

import Lexis.Path

/-! The settings of a run. -/
namespace Lexis.CommandLine

structure Settings where
  path : Path
  name : Option String
  kinds : Bool
  /-- Whether the work is to be logged. The log is no part of the answer. -/
  verbose : Bool
  colour : Bool
deriving DecidableEq, Repr

end Lexis.CommandLine

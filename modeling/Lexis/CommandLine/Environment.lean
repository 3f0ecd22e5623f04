/-! The environment variables that stand in for options. -/
namespace Lexis.CommandLine

structure Environment where
  name : Option String
  verbose : Option String
  noColour : Option String
  /-- The value of the variable by which all programs are asked to do without colour. -/
  plain : Option String
deriving DecidableEq, Repr

namespace Environment

def nameVariable : String := "DIUM_NAME"

def verboseVariable : String := "DIUM_VERBOSE"

def noColourVariable : String := "DIUM_NO_COLOR"

def plainVariable : String := "NO_COLOR"

def ofLookup {m : Type → Type} [Monad m] (lookup : String → m (Option String)) : m Environment :=
  return {
    name := ← lookup nameVariable
    verbose := ← lookup verboseVariable
    noColour := ← lookup noColourVariable
    plain := ← lookup plainVariable }

end Environment

end Lexis.CommandLine

import Lexis.SystemError
import Lexis.Writing

/-! What the program writes to: its output and the error stream. Only the output may refuse what is
written. -/
namespace Lexis.CommandLine

/-- What has been written so far, and what keeps the output from being written, if anything does. -/
structure Console where
  obstacle : Option SystemError
  output : String
  messages : String
deriving DecidableEq, Repr

namespace Console

def blank (obstacle : Option SystemError) : Console := ⟨obstacle, "", ""⟩

def print : Writer Console SystemError := fun text =>
  ExceptT.mk fun c =>
    match c.obstacle with
    | none => (.ok (), { c with output := c.output ++ text })
    | some e => (.error e, c)

def complain : Writer Console SystemError := fun text =>
  ExceptT.mk fun c => (.ok (), { c with messages := c.messages ++ text })

theorem outcome_print (output messages text : String) :
    (print text).outcome ⟨none, output, messages⟩ =
      (.ok (), ⟨none, output ++ text, messages⟩) := rfl

theorem outcome_complain (obstacle : Option SystemError) (output messages text : String) :
    (complain text).outcome ⟨obstacle, output, messages⟩ =
      (.ok (), ⟨obstacle, output, messages ++ text⟩) := rfl

end Console

end Lexis.CommandLine

import Lexis.Position
import Lexis.Text.Quoted

/-! What can be wrong with a source, and where. -/
namespace Lexis

inductive Fault where
  /-- The source could not be read from its file. -/
  | unreadable (path reason : String)
  | unclosedComment
  /-- A byte starts nothing. It is shown as a character. -/
  | illegalCharacter (shown : Char) (code : UInt8)
  /-- A word has more than `limit` bytes. -/
  | longIdentifier (spelling : String) (limit : Nat)
  /-- A number has no 32-bit value. -/
  | numberTooLarge (literal : String)
deriving DecidableEq, Repr

namespace Fault

def message : Fault → String
  | unreadable path reason =>
    "could not open source file " ++ Text.quoted path ++ ": " ++ reason
  | unclosedComment => "Comment not closed"
  | illegalCharacter shown code =>
    "Illegal character '" ++ String.singleton shown ++ "' (ASCII #" ++ toString code.toNat
      ++ ") found"
  | longIdentifier spelling limit =>
    "Identifier " ++ Text.quoted spelling ++ " is longer than " ++ toString limit ++ " characters"
  | numberTooLarge literal => "Number " ++ literal ++ " is too large"

def tip? : Fault → Option String
  | unreadable _ _ => none
  | unclosedComment => some "Every `/-` needs a matching `-/`, including nested comments"
  | illegalCharacter _ _ => none
  | longIdentifier _ limit =>
    some ("Identifiers may be at most " ++ toString limit ++ " characters long")
  | numberTooLarge _ =>
    some ("Number literals may not be larger than " ++ toString Int32.maxValue.toInt)

end Fault

/-- A fault in the source of the given name. A source that was never read has no positions. -/
structure Failure where
  fault : Fault
  position : Option Position
  source : String
deriving DecidableEq, Repr

namespace Failure

def text (f : Failure) : String :=
  match f.position with
  | some p => f.source ++ ": " ++ toString p ++ " Error: " ++ f.fault.message
  | none => f.source ++ ": Error: " ++ f.fault.message

instance : ToString Failure := ⟨text⟩

end Failure

end Lexis

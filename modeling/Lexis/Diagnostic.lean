import Lexis.Fault

/-! Messages about a source, of two severities. -/
namespace Lexis

inductive Severity where
  | error
  | warning
deriving DecidableEq, Repr

namespace Severity

def name : Severity → String
  | error => "Error"
  | warning => "Warning"

instance : ToString Severity := ⟨name⟩

def isFatal : Severity → Bool
  | error => true
  | warning => false

def colourCode : Severity → String
  | error => "\x1b[31m"
  | warning => "\x1b[33m"

end Severity

def plainCode : String := "\x1b[0m"

structure Diagnostic where
  severity : Severity
  source : String
  position : Option Position
  message : String
deriving DecidableEq, Repr

namespace Diagnostic

def text (d : Diagnostic) : String :=
  match d.position with
  | some p => d.source ++ ": " ++ toString p ++ " " ++ d.severity.name ++ ": " ++ d.message
  | none => d.source ++ ": " ++ d.severity.name ++ ": " ++ d.message

instance : ToString Diagnostic := ⟨text⟩

end Diagnostic

def Failure.diagnostic (f : Failure) : Diagnostic :=
  ⟨.error, f.source, f.position, f.fault.message⟩

end Lexis

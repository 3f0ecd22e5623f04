import Lexis.Diagnostic
import Lexis.Sink
import Lexis.Text.Lines

/-! Reports for people.
A report is a list of texts, each of which ends a line. A failure is reported with an excerpt of
its source, where the line is known, and with a tip, where there is one. Colour touches nothing but
the word for the severity. -/
namespace Lexis

def Severity.render (colour : Bool) (s : Severity) : String :=
  if colour then s.colourCode ++ s.name ++ plainCode else s.name

namespace Report

def place (source : String) : Option Position → String
  | some p => source ++ ": " ++ toString p ++ " "
  | none => source ++ ": "

def ofDiagnostic (colour : Bool) (d : Diagnostic) : String :=
  place d.source d.position ++ d.severity.render colour ++ ": " ++ d.message ++ "\n"

def bar (number : String) : String :=
  String.ofList (List.replicate (number.length + 1) ' ') ++ "|"

/-- What leads up to a column: a dash for each character before it, but tabs for tabs, so that the
column is found under its character. It stops at the end of the line. -/
def lead (line : String) (column : UInt32) : String :=
  String.ofList ((line.toList.take (column.toNat - 1)).map fun c => if c = '\t' then '\t' else '-')

def excerpt (line : String) (p : Position) : List String :=
  let number := toString p.line.toNat
  [bar number ++ "\n",
    number ++ " | " ++ line ++ "\n",
    bar number ++ " " ++ lead line p.column ++ "^\n"]

def failureLine? (f : Failure) (content : Option String) : Option (String × Position) := do
  let p ← f.position
  let line ← lineOf? (← content) p.line
  return (line, p)

def shown (f : Failure) (content : Option String) : List String :=
  match failureLine? f content with
  | some (line, p) => excerpt line p
  | none => []

def advice (f : Fault) : List String :=
  match f.tip? with
  | some tip => ["tip: " ++ tip ++ "\n"]
  | none => []

def ofFailure (colour : Bool) (f : Failure) (content : Option String) : List String :=
  ofDiagnostic colour f.diagnostic :: (shown f content ++ advice f.fault)

end Report

end Lexis

import Lexis.Writing

/-! The pieces in which a report is handed to a writer.
They are the same for all writers. Put together, they are the lines of the report. -/
namespace Lexis.Report

variable {m : Type → Type} [Monad m] [LawfulMonad m] (put : String → m Unit)

def severityPieces (colour : Bool) (s : Severity) : List String :=
  if colour then [s.colourCode, s.name, plainCode] else [s.name]

def diagnosticPieces (colour : Bool) (d : Diagnostic) : List String :=
  place d.source d.position :: (severityPieces colour d.severity ++ [": ", d.message, "\n"])

def barPieces (number : String) : List String :=
  List.replicate (number.length + 1) " " ++ ["|"]

def excerptPieces (line : String) (p : Position) : List String :=
  let number := toString p.line.toNat
  barPieces number ++ ["\n", number, " | ", line, "\n"] ++
    (barPieces number ++ [" ", lead line p.column, "^\n"])

def shownPieces (f : Failure) (content : Option String) : List String :=
  match failureLine? f content with
  | some (line, p) => excerptPieces line p
  | none => []

def advicePieces (f : Fault) : List String :=
  match f.tip? with
  | some tip => ["tip: ", tip, "\n"]
  | none => []

def failurePieces (colour : Bool) (f : Failure) (content : Option String) : List String :=
  diagnosticPieces colour f.diagnostic ++ (shownPieces f content ++ advicePieces f.fault)

theorem writeSeverity_eq (colour : Bool) (s : Severity) :
    writeSeverity put colour s = forM (severityPieces colour s) put := by
  cases colour <;> simp [writeSeverity, severityPieces]

theorem writeDiagnostic_eq (colour : Bool) (d : Diagnostic) :
    writeDiagnostic put colour d = forM (diagnosticPieces colour d) put := by
  simp [writeDiagnostic, diagnosticPieces, writeSeverity_eq]

theorem writeBar_eq (number : String) :
    writeBar put number = forM (barPieces number) put := by
  simp [writeBar, barPieces]

theorem writeExcerpt_eq (line : String) (p : Position) :
    writeExcerpt put line p = forM (excerptPieces line p) put := by
  simp [writeExcerpt, excerptPieces, writeBar_eq]

theorem writeFailure_eq (colour : Bool) (f : Failure) (content : Option String) :
    writeFailure put colour f content = forM (failurePieces colour f content) put := by
  rw [writeFailure, failurePieces, shownPieces, advicePieces]
  cases failureLine? f content <;> cases f.fault.tip? <;>
    simp [writeDiagnostic_eq, writeExcerpt_eq]

theorem join_diagnosticPieces (colour : Bool) (d : Diagnostic) :
    String.join (diagnosticPieces colour d) = ofDiagnostic colour d := by
  cases colour <;>
    simp [diagnosticPieces, severityPieces, ofDiagnostic, Severity.render, String.append_assoc]

theorem join_barPieces (number : String) : String.join (barPieces number) = bar number := by
  have hroom (k : Nat) :
      String.join (List.replicate k " ") = String.ofList (List.replicate k ' ') := by
    induction k with
    | zero => rfl
    | succ k ih =>
      rw [List.replicate_succ, List.replicate_succ, String.join_cons, ih, String.ofList_cons]
      rfl
  rw [barPieces, bar, String.join_append, hroom, String.join_cons, String.join_nil,
    String.append_empty]

theorem join_excerptPieces (line : String) (p : Position) :
    String.join (excerptPieces line p) = String.join (excerpt line p) := by
  simp [excerptPieces, excerpt, join_barPieces, String.append_assoc]

theorem join_failurePieces (colour : Bool) (f : Failure) (content : Option String) :
    String.join (failurePieces colour f content) = String.join (ofFailure colour f content) := by
  rw [failurePieces, shownPieces, advicePieces, ofFailure, shown, advice]
  cases failureLine? f content <;> cases f.fault.tip? <;>
    simp [join_diagnosticPieces, join_excerptPieces, String.append_assoc]

end Lexis.Report

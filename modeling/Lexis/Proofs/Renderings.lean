import Lexis.Report

/-! The line of a diagnostic in all its renderings.
A failure, its diagnostic and the reports of both, with or without colour, have one line in common.
They differ in nothing but how the word for the severity is written. -/
namespace Lexis.Report

/-- Where nothing keeps them from being written, the texts are written as this one text. -/
def Writes (texts : List String) (text : String) : Prop :=
  (Sink.empty none).writeAll texts = (.ok (), ⟨Text.utf8 text, none⟩)

theorem writes_join (texts : List String) : Writes texts (String.join texts) :=
  Sink.writeAll_of_unlimited [] texts

theorem writes_cons (text : String) (texts : List String) :
    Writes (text :: texts) (text ++ String.join texts) := by
  rw [← String.join_cons]
  exact writes_join _

def line (d : Diagnostic) (word : String) : String :=
  place d.source d.position ++ word ++ ": " ++ d.message

def coloured (s : Severity) : String :=
  s.colourCode ++ s.name ++ plainCode

theorem toString_diagnostic (d : Diagnostic) : toString d = line d d.severity.name := by
  obtain ⟨severity, source, position, message⟩ := d
  cases position <;> rfl

theorem toString_failure (f : Failure) : toString f = line f.diagnostic Severity.error.name := by
  obtain ⟨fault, position, source⟩ := f
  cases position with
  | none =>
    have hword : ": Error: " = ": " ++ (Severity.error.name ++ ": ") := rfl
    change source ++ ": Error: " ++ fault.message =
      source ++ ": " ++ Severity.error.name ++ ": " ++ fault.message
    simp only [hword, String.append_assoc]
  | some p =>
    have hword : " Error: " = " " ++ (Severity.error.name ++ ": ") := rfl
    change source ++ ": " ++ toString p ++ " Error: " ++ fault.message =
      source ++ ": " ++ toString p ++ " " ++ Severity.error.name ++ ": " ++ fault.message
    simp only [hword, String.append_assoc]

theorem ofDiagnostic_plain (d : Diagnostic) :
    ofDiagnostic false d = line d d.severity.name ++ "\n" := rfl

theorem ofDiagnostic_coloured (d : Diagnostic) :
    ofDiagnostic true d = line d (coloured d.severity) ++ "\n" := rfl

/-- What follows the line of a failure in its report has no colour. -/
theorem exists_ofFailure_eq (f : Failure) (content : Option String) :
    ∃ behind, ∀ colour, ofFailure colour f content = ofDiagnostic colour f.diagnostic :: behind :=
  ⟨_, fun _ => rfl⟩

/-- A failure is shown as its diagnostic is, and its report begins with this line. The report of a
diagnostic is its line. With colours the same is written, but for a code right before the word for
the severity and a code right behind it, both of them in this line. The codes make an error red and
a warning yellow. -/
theorem writes_line (f : Failure) (d : Diagnostic) (content : Option String) :
    toString f = toString f.diagnostic ∧
      toString f = line f.diagnostic "Error" ∧
      (∃ behind, Writes (ofFailure false f content) (toString f ++ "\n" ++ behind) ∧
        Writes (ofFailure true f content)
          (line f.diagnostic (coloured .error) ++ "\n" ++ behind)) ∧
      toString d = line d d.severity.name ∧
      Writes [ofDiagnostic false d] (toString d ++ "\n") ∧
      Writes [ofDiagnostic true d] (line d (coloured d.severity) ++ "\n") ∧
      coloured .error = "\x1b[31mError\x1b[0m" ∧ coloured .warning = "\x1b[33mWarning\x1b[0m" := by
  obtain ⟨behind, hreport⟩ := exists_ofFailure_eq f content
  have hfailure := toString_failure f
  have hdiagnostic := toString_diagnostic d
  refine ⟨hfailure.trans (toString_diagnostic _).symm, hfailure, ⟨String.join behind, ?_, ?_⟩,
    hdiagnostic, ?_, ?_, rfl, rfl⟩
  · rw [hreport, ofDiagnostic_plain, hfailure]
    exact writes_cons _ behind
  · rw [hreport, ofDiagnostic_coloured]
    exact writes_cons _ behind
  · rw [hdiagnostic, ofDiagnostic_plain]
    simpa using writes_cons _ []
  · rw [ofDiagnostic_coloured]
    simpa using writes_cons _ []

end Lexis.Report

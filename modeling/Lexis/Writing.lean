import Lexis.Report

/-! Reports as they are written.
A report is handed to a writer piece by piece. A writer may refuse a piece, and then the report ends
there. Reports are programs that are the same for all writers. -/
namespace Lexis

abbrev Writing (σ ε : Type) := ExceptT ε (StateM σ)

namespace Writing

variable {σ ε α β : Type}

def outcome (w : Writing σ ε α) (s : σ) : Except ε α × σ :=
  w.run.run s

theorem outcome_bind_of_ok {w : Writing σ ε α} {v : α → Writing σ ε β} {a : α} {s t : σ}
    (h : w.outcome s = (.ok a, t)) : outcome (w >>= v) s = (v a).outcome t := by
  simp only [outcome, ExceptT.run_bind, StateT.run_bind] at h ⊢
  rw [h]
  rfl

theorem outcome_bind_of_error {w : Writing σ ε α} {v : α → Writing σ ε β} {s t : σ} {fault : ε}
    (h : w.outcome s = (.error fault, t)) : outcome (w >>= v) s = (.error fault, t) := by
  simp only [outcome, ExceptT.run_bind, StateT.run_bind] at h ⊢
  rw [h]
  rfl

end Writing

/-- What takes texts, or refuses them. Of a text that it refuses it may have taken a part. -/
abbrev Writer (σ ε : Type) := String → Writing σ ε Unit

/-- A writer that puts every text behind what it holds takes texts in a row as one. -/
theorem Writer.outcome_forM_of_append {σ ε : Type} {put : Writer σ ε} (hold : String → σ)
    (h : ∀ written text, (put text).outcome (hold written) = (.ok (), hold (written ++ text)))
    (written : String) (texts : List String) :
    Writing.outcome (forM texts put) (hold written) =
      (.ok (), hold (written ++ String.join texts)) := by
  induction texts generalizing written with
  | nil =>
    rw [String.join_nil, String.append_empty]
    rfl
  | cons text texts ih =>
    rw [List.forM_cons, Writing.outcome_bind_of_ok (h written text), ih, String.join_cons,
      String.append_assoc]

def Sink.put : Writer Sink WriteFault := fun text =>
  ExceptT.mk fun s => s.writeBytes (Text.utf8 text)

theorem Sink.outcome_put (s : Sink) (text : String) :
    (put text).outcome s = s.writeBytes (Text.utf8 text) := rfl

namespace Report

variable {m : Type → Type} [Monad m] (put : String → m Unit)

def writeSeverity (colour : Bool) (s : Severity) : m Unit := do
  if colour then
    put s.colourCode
    put s.name
    put plainCode
  else
    put s.name

def writeDiagnostic (colour : Bool) (d : Diagnostic) : m Unit := do
  put (place d.source d.position)
  writeSeverity put colour d.severity
  put ": "
  put d.message
  put "\n"

def writeBar (number : String) : m Unit := do
  (List.replicate (number.length + 1) " ").forM put
  put "|"

def writeExcerpt (line : String) (p : Position) : m Unit := do
  let number := toString p.line.toNat
  writeBar put number
  put "\n"
  put number
  put " | "
  put line
  put "\n"
  writeBar put number
  put " "
  put (lead line p.column)
  put "^\n"

def writeFailure (colour : Bool) (f : Failure) (content : Option String) : m Unit := do
  writeDiagnostic put colour f.diagnostic
  if let some (line, p) := failureLine? f content then
    writeExcerpt put line p
  if let some tip := f.fault.tip? then
    put "tip: "
    put tip
    put "\n"

end Report

end Lexis

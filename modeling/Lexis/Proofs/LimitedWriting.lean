import Lexis.Proofs.ReportPieces

/-! Reports that a writer does not take whole.
A report is handed over in pieces, and none of them is handed over behind one that is refused. A
sink does not see the pieces. So what it holds in the end is the report up to the limit, and the
writing ends well exactly if this is all of the report. -/
namespace Lexis

variable {σ ε : Type}

/-! Texts that are handed to a writer. -/

namespace Writer

inductive Takes (put : Writer σ ε) : σ → List String → σ → Prop
  | nil (s : σ) : Takes put s [] s
  | cons {s t u : σ} {text : String} {texts : List String} :
      (put text).outcome s = (.ok (), t) → Takes put t texts u → Takes put s (text :: texts) u

/-- How it ends when texts are handed to a writer one after the other. If a text is refused, the
texts behind it are not handed over. -/
inductive Ends (put : Writer σ ε) (s : σ) : List String → Except ε Unit × σ → Prop
  | whole {texts : List String} {t : σ} : put.Takes s texts t → Ends put s texts (.ok (), t)
  | refused {front back : List String} {text : String} {t u : σ} {fault : ε} :
      put.Takes s front t → (put text).outcome t = (.error fault, u) →
      Ends put s (front ++ text :: back) (.error fault, u)

theorem Ends.cons {put : Writer σ ε} {s t : σ} {text : String} {texts : List String}
    {outcome : Except ε Unit × σ} (htext : (put text).outcome s = (.ok (), t))
    (h : put.Ends t texts outcome) : put.Ends s (text :: texts) outcome := by
  cases h with
  | whole htakes => exact .whole (.cons htext htakes)
  | refused htakes hrefused => exact .refused (.cons htext htakes) hrefused

theorem ends_forM (put : Writer σ ε) (s : σ) (texts : List String) :
    put.Ends s texts (Writing.outcome (forM texts put) s) := by
  -- A text meets the state that the texts before it have led to.
  induction texts generalizing s with
  | nil => exact .whole (.nil s)
  | cons text texts ih =>
    rw [List.forM_cons]
    rcases htext : (put text).outcome s with ⟨result, t⟩
    cases result with
    | error fault =>
      rw [Writing.outcome_bind_of_error htext]
      exact .refused (.nil s) htext
    | ok =>
      rw [Writing.outcome_bind_of_ok htext]
      exact (ih t).cons htext

end Writer

/-! Texts that are written to a sink. -/

namespace Sink

theorem outcome_forM (s : Sink) (texts : List String) :
    Writing.outcome (forM texts put) s = s.writeAll texts := by
  induction texts generalizing s with
  | nil => rfl
  | cons text texts ih =>
    rw [List.forM_cons, writeAll]
    rcases htext : s.writeBytes (Text.utf8 text) with ⟨result, t⟩
    rw [← outcome_put] at htext
    cases result with
    | error fault => exact Writing.outcome_bind_of_error htext
    | ok => rw [Writing.outcome_bind_of_ok htext, ih]

/-- What is written is `bytes`. Without a limit a sink takes all of them. With a limit it takes as
many as the limit allows, and the writing ends well exactly if these are all of them. -/
structure Receives (w : Writing Sink WriteFault Unit) (bytes : List UInt8) : Prop where
  whole : w.outcome (empty none) = (.ok (), ⟨bytes, none⟩)
  written (limit : Nat) :
    (w.outcome (empty (some limit))).2.written = bytes.take (min limit bytes.length)
  ok_iff (limit : Nat) : (w.outcome (empty (some limit))).1 = .ok () ↔ bytes.length ≤ limit

theorem receives_of_outcome {w : Writing Sink WriteFault Unit} {bytes : List UInt8}
    (h : ∀ s : Sink, w.outcome s = s.writeBytes bytes) : Receives w bytes := by
  have hlimit (limit : Nat) :
      (w.outcome (empty (some limit))).2.written = bytes.take (min limit bytes.length) ∧
        ((w.outcome (empty (some limit))).1 = .ok () ↔ bytes.length ≤ limit) := by
    rw [h, empty]
    rcases Nat.lt_or_ge limit bytes.length with hlt | hle
    · rw [writeBytes_of_lt hlt, Nat.min_eq_left (Nat.le_of_lt hlt)]
      exact ⟨rfl, iff_of_false nofun (Nat.not_le.2 hlt)⟩
    · rw [writeBytes_of_le hle, Nat.min_eq_right hle, List.take_length]
      exact ⟨rfl, iff_of_true rfl hle⟩
  exact ⟨h _, fun limit => (hlimit limit).1, fun limit => (hlimit limit).2⟩

/-- A sink does not see where a text is cut into pieces. -/
theorem outcome_forM_of_join_eq {pieces texts : List String}
    (h : String.join pieces = String.join texts) (s : Sink) :
    Writing.outcome (forM pieces put) s = s.writeAll texts := by
  rw [outcome_forM, writeAll_eq_writeBytes, writeAll_eq_writeBytes, h]

end Sink

/-! Reports. -/

namespace Report

/-- In a sink the report of a diagnostic is its line. -/
theorem outcome_writeDiagnostic (colour : Bool) (d : Diagnostic) (s : Sink) :
    (writeDiagnostic Sink.put colour d).outcome s = s.writeAll [ofDiagnostic colour d] := by
  rw [writeDiagnostic_eq]
  apply Sink.outcome_forM_of_join_eq
  simp [join_diagnosticPieces]

/-- In a sink the report of a failure is its lines. -/
theorem outcome_writeFailure (colour : Bool) (f : Failure) (content : Option String) (s : Sink) :
    (writeFailure Sink.put colour f content).outcome s =
      s.writeAll (ofFailure colour f content) := by
  rw [writeFailure_eq]
  exact Sink.outcome_forM_of_join_eq (join_failurePieces colour f content) s

/-- A report for which there is not enough room is cut where the room ends, and its writing fails.
With room for `limit` bytes a sink holds the first `limit` bytes of the report in the end, or all of
them if there are no more, and only then the writing ends well. This holds for failures, with their
excerpts and tips, as for diagnostics. No writer is handed a piece of a report behind one that it
refuses, even if it would take it. -/
theorem writeFailure_limited (colour : Bool) (f : Failure) (content : Option String)
    (d : Diagnostic) :
    Sink.Receives (writeFailure Sink.put colour f content)
        (Text.utf8 (String.join (ofFailure colour f content))) ∧
      Sink.Receives (writeDiagnostic Sink.put colour d) (Text.utf8 (ofDiagnostic colour d)) ∧
      ∀ {σ ε : Type} (put : Writer σ ε) (s : σ),
        put.Ends s (failurePieces colour f content)
            ((writeFailure put colour f content).outcome s) ∧
          put.Ends s (diagnosticPieces colour d) ((writeDiagnostic put colour d).outcome s) := by
  refine ⟨Sink.receives_of_outcome fun s => ?_, Sink.receives_of_outcome fun s => ?_,
    fun put s => ⟨?_, ?_⟩⟩
  · rw [outcome_writeFailure, Sink.writeAll_eq_writeBytes]
  · rw [outcome_writeDiagnostic, Sink.writeAll_eq_writeBytes, String.join_cons, String.join_nil,
      String.append_empty]
  · rw [writeFailure_eq]
    exact put.ends_forM s _
  · rw [writeDiagnostic_eq]
    exact put.ends_forM s _

example : (writeFailure Sink.put false ⟨.unclosedComment, some ⟨1, 1⟩, "a"⟩
    (some "/-")).outcome (.empty (some 49)) =
      (.error .outOfRoom,
        ⟨Text.utf8 "a: 1:1 Error: Comment not closed\n  |\n1 | /-\n  | ^", some 0⟩) := rfl

end Report
end Lexis

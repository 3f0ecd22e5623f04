import Mathlib.Data.List.TakeWhile

/-! Maximal runs of bytes of one class, which is how words, numbers and line comments end. -/
namespace Lexis

structure MaximalRun (p : UInt8 → Bool) (run after : List UInt8) : Prop where
  all : ∀ b ∈ run, p b = true
  stops : ∀ b ∈ after.head?, p b = false

namespace MaximalRun

theorem iff_all {p : UInt8 → Bool} {run after : List UInt8} :
    MaximalRun p run after ↔ run.all p = true ∧ after.head?.all (fun b => !p b) = true := by
  rw [List.all_eq_true, Option.all_eq_true]
  simp only [Bool.not_eq_true']
  exact ⟨fun h => ⟨h.all, h.stops⟩, fun h => ⟨h.1, h.2⟩⟩

instance (p : UInt8 → Bool) (run after : List UInt8) : Decidable (MaximalRun p run after) :=
  decidable_of_iff _ iff_all.symm

theorem takeWhile_append {p : UInt8 → Bool} {run after : List UInt8} (h : MaximalRun p run after) :
    (run ++ after).takeWhile p = run := by
  rw [List.takeWhile_append_of_pos h.all]
  cases after with
  | nil => simp
  | cons b after => simp [h.stops b rfl]

/-- Every sequence of bytes begins with a maximal run, which may be empty. -/
theorem exists_append (p : UInt8 → Bool) (ahead : List UInt8) :
    ∃ run after, ahead = run ++ after ∧ MaximalRun p run after := by
  refine ⟨ahead.takeWhile p, ahead.dropWhile p, List.takeWhile_append_dropWhile.symm, ?_, ?_⟩
  · intro b hb
    exact List.mem_takeWhile_imp hb
  · intro b hb
    have hnot := List.head?_dropWhile_not p ahead
    rw [Option.mem_def.1 hb] at hnot
    exact hnot

/-- A run in front of a byte of the class has a first byte, which is of the class. -/
theorem exists_cons {p : UInt8 → Bool} {b : UInt8} (hb : p b = true) (rest : List UInt8) :
    ∃ run after, rest = run ++ after ∧ MaximalRun p (b :: run) after := by
  obtain ⟨run, after, rfl, hrun⟩ := exists_append p rest
  refine ⟨run, after, rfl, ?_, hrun.stops⟩
  intro c hc
  rcases List.mem_cons.1 hc with rfl | hc
  · exact hb
  · exact hrun.all c hc

end MaximalRun

end Lexis

import Lexis.Byte

/-! Places in a source, as a line and a column.
Lines count from 1. Columns count bytes, from 1 once the first byte has been reached. Both are
32-bit words, so positions are exact for sources of at most 2 ^ 32 - 2 bytes. -/
namespace Lexis

structure Position where
  line : UInt32
  column : UInt32
deriving DecidableEq, Repr

namespace Position

def start : Position := ⟨1, 0⟩

def first : Position := ⟨1, 1⟩

instance : Inhabited Position := ⟨start⟩

instance : ToString Position where
  toString p := s!"{p.line.toNat}:{p.column.toNat}"

instance : LT Position where
  lt p q := p.line < q.line ∨ (p.line = q.line ∧ p.column < q.column)

instance : LE Position where
  le p q := p.line < q.line ∨ (p.line = q.line ∧ p.column ≤ q.column)

instance (p q : Position) : Decidable (p < q) :=
  inferInstanceAs (Decidable (p.line < q.line ∨ (p.line = q.line ∧ p.column < q.column)))

instance (p q : Position) : Decidable (p ≤ q) :=
  inferInstanceAs (Decidable (p.line < q.line ∨ (p.line = q.line ∧ p.column ≤ q.column)))

theorem lt_iff {p q : Position} :
    p < q ↔ p.line < q.line ∨ (p.line = q.line ∧ p.column < q.column) := Iff.rfl

theorem le_iff {p q : Position} :
    p ≤ q ↔ p.line < q.line ∨ (p.line = q.line ∧ p.column ≤ q.column) := Iff.rfl

def ascending (ps : List Position) : List Position :=
  (ps.mergeSort fun p q => decide (p ≤ q)).eraseReps

/-- Whether a line is over after the byte `b`, given the byte that follows it. A carriage return
before a line feed leaves the end of the line to the line feed. -/
def endsLine (b : UInt8) (following : Option UInt8) : Bool :=
  b == Byte.lineFeed || (b == Byte.carriageReturn && following != some Byte.lineFeed)

def past (p : Position) (b : UInt8) (following : Option UInt8) : Position :=
  if endsLine b following then ⟨p.line + 1, 1⟩ else ⟨p.line, p.column + 1⟩

theorem past_of_endsLine {p : Position} {b : UInt8} {following : Option UInt8}
    (h : endsLine b following = true) : p.past b following = ⟨p.line + 1, 1⟩ := by
  simp [past, h]

theorem past_of_not_endsLine {p : Position} {b : UInt8} {following : Option UInt8}
    (h : endsLine b following = false) : p.past b following = ⟨p.line, p.column + 1⟩ := by
  simp [past, h]

end Position

end Lexis

import Lexis.Position

/-! A place inside the bytes of a source.
A cursor splits the source into the bytes it has passed and the bytes still ahead, and it carries
the position of the first byte ahead. Moving never loses a byte: `bytes_advanceBy`. -/
namespace Lexis

structure Cursor where
  /-- The bytes already passed, the latest first. -/
  passed : List UInt8
  rest : List UInt8
  /-- The position of the first byte ahead, or of the end. -/
  position : Position
deriving DecidableEq, Repr

namespace Cursor

/-- The cursor on the first byte. An empty source has no first byte and keeps the start position. -/
def ofBytes (bytes : List UInt8) : Cursor where
  passed := []
  rest := bytes
  position := if bytes.isEmpty then .start else .first

def bytes (c : Cursor) : List UInt8 :=
  c.passed.reverse ++ c.rest

def offset (c : Cursor) : Nat :=
  c.passed.length

def current? (c : Cursor) : Option UInt8 :=
  c.rest.head?

def peek? (c : Cursor) : Option UInt8 :=
  c.rest.tail.head?

def advance (c : Cursor) : Cursor :=
  match c.rest with
  | [] => c
  | b :: rest => ⟨b :: c.passed, rest, c.position.past b rest.head?⟩

def advanceBy (c : Cursor) : Nat → Cursor
  | 0 => c
  | n + 1 => c.advance.advanceBy n

def toEnd (c : Cursor) : Cursor :=
  c.advanceBy c.rest.length

@[simp] theorem rest_ofBytes (bytes : List UInt8) : (ofBytes bytes).rest = bytes := rfl

@[simp] theorem offset_ofBytes (bytes : List UInt8) : (ofBytes bytes).offset = 0 := rfl

@[simp] theorem bytes_ofBytes (bytes : List UInt8) : (ofBytes bytes).bytes = bytes := rfl

@[simp] theorem rest_advance (c : Cursor) : c.advance.rest = c.rest.tail := by
  unfold advance
  split <;> simp [*]

@[simp] theorem bytes_advance (c : Cursor) : c.advance.bytes = c.bytes := by
  unfold advance
  split <;> simp [bytes, *]

theorem advance_of_rest_eq_nil {c : Cursor} (h : c.rest = []) : c.advance = c := by
  simp [advance, h]

@[simp] theorem advanceBy_zero (c : Cursor) : c.advanceBy 0 = c := rfl

theorem advanceBy_succ (c : Cursor) (n : Nat) : c.advanceBy (n + 1) = c.advance.advanceBy n := rfl

theorem advanceBy_advanceBy (c : Cursor) (m n : Nat) :
    (c.advanceBy m).advanceBy n = c.advanceBy (m + n) := by
  induction m generalizing c with
  | zero => simp
  | succ m ih => rw [Nat.succ_add, advanceBy_succ, advanceBy_succ, ih]

@[simp] theorem rest_advanceBy (c : Cursor) (n : Nat) : (c.advanceBy n).rest = c.rest.drop n := by
  induction n generalizing c with
  | zero => simp
  | succ n ih => rw [advanceBy_succ, ih, rest_advance, List.drop_tail]

@[simp] theorem bytes_advanceBy (c : Cursor) (n : Nat) : (c.advanceBy n).bytes = c.bytes := by
  induction n generalizing c with
  | zero => rfl
  | succ n ih => rw [advanceBy_succ, ih, bytes_advance]

@[simp] theorem rest_toEnd (c : Cursor) : c.toEnd.rest = [] := by
  simp [toEnd]

@[simp] theorem bytes_toEnd (c : Cursor) : c.toEnd.bytes = c.bytes := by
  simp [toEnd]

end Cursor

/-- A reader of a source, which stands before the first byte until it is moved for the first
time. -/
inductive Reader where
  | unread (bytes : List UInt8)
  | reading (cursor : Cursor)

namespace Reader

def bytes : Reader → List UInt8
  | unread bytes => bytes
  | reading c => c.bytes

def current? : Reader → Option UInt8
  | unread _ => none
  | reading c => c.current?

def peek? : Reader → Option UInt8
  | unread _ => none
  | reading c => c.peek?

def atEnd (r : Reader) : Bool :=
  r.current?.isNone

def position : Reader → Position
  | unread _ => .start
  | reading c => c.position

def advance : Reader → Reader
  | unread bytes => reading (.ofBytes bytes)
  | reading c => reading c.advance

def advanceBy (r : Reader) : Nat → Reader
  | 0 => r
  | n + 1 => r.advance.advanceBy n

@[simp] theorem bytes_advance (r : Reader) : r.advance.bytes = r.bytes := by
  cases r <;> simp [advance, bytes]

@[simp] theorem bytes_advanceBy (r : Reader) (n : Nat) : (r.advanceBy n).bytes = r.bytes := by
  induction n generalizing r with
  | zero => rfl
  | succ n ih => rw [advanceBy, ih, bytes_advance]

end Reader

end Lexis

import Lexis.Cursor
import Lexis.Gap
import Lexis.Lexeme

/-! A scan of a source.
A scan stands at a place in its source and is moved by reading tokens, or by skipping a comment or
reading a word or a number there, whatever stands there. The first token that cannot be read ends
the scan for good: `readToken` then keeps answering with that failure. -/
namespace Lexis

structure Scan where
  cursor : Cursor
  /-- The name of the source. -/
  source : String
  /-- The failure of the first token that could not be read. -/
  failed : Option Failure
  /-- Whether the tokens have been listed to their end. -/
  finished : Bool
deriving Repr

namespace Scan

def defaultSource : String := "shell"

def ofBytes (bytes : List UInt8) (source : Option String) : Scan where
  cursor := .ofBytes bytes
  source := source.getD defaultSource
  failed := none
  finished := false

def bytes (s : Scan) : List UInt8 :=
  s.cursor.bytes

def failure (s : Scan) (fault : Fault) (position : Position) : Failure :=
  ⟨fault, some position, s.source⟩

/-- Takes the bytes of a reading. The token, or the failure, starts where the scan stood. -/
def take (s : Scan) (r : Reading) : Except Failure Token × Scan :=
  (match r.outcome with
    | .ok lexeme => .ok ⟨lexeme.kind, lexeme.payload, s.cursor.position⟩
    | .error fault => .error (s.failure fault s.cursor.position),
    { s with cursor := s.cursor.advanceBy r.length })

def skip (s : Scan) : Extent → Except Failure Unit × Scan
  | .upTo length => (.ok (), { s with cursor := s.cursor.advanceBy length })
  | .unclosed opener =>
    (.error (s.failure .unclosedComment (s.cursor.advanceBy opener).position),
      { s with cursor := s.cursor.toEnd })

def skipComment (form : Comment.Form) (s : Scan) : Except Failure Unit × Scan :=
  s.skip (Comment.extent form s.cursor.rest)

def readWord (s : Scan) : Except Failure Token × Scan :=
  s.take (.word s.cursor.rest)

def readNumber (s : Scan) : Except Failure Token × Scan :=
  s.take (.number s.cursor.rest)

def readLexeme (s : Scan) : Except Failure Token × Scan :=
  match s.skip (Gap.extent s.cursor.rest) with
  | (.error failure, s) => (.error failure, s)
  | (.ok (), s) => s.take (.next s.cursor.rest)

/-- Reads the next token. After a failure nothing is read any more. -/
def readToken (s : Scan) : Except Failure Token × Scan :=
  match s.failed with
  | some failure => (.error failure, s)
  | none =>
    match s.readLexeme with
    | (.error failure, s) => (.error failure, { s with failed := some failure })
    | (.ok token, s) => (.ok token, s)

/-- Lists the next token. The list ends before the end of the source or after a failure. -/
def next? (s : Scan) : Option (Except Failure Token) × Scan :=
  if s.finished then (none, s)
  else
    match s.readToken with
    | (.error failure, s) => (some (.error failure), { s with finished := true })
    | (.ok token, s) =>
      if token.isEnd then (none, { s with finished := true }) else (some (.ok token), s)

@[simp] theorem bytes_take (s : Scan) (r : Reading) : (s.take r).2.bytes = s.bytes := by
  simp [take, bytes]

@[simp] theorem bytes_skip (s : Scan) (e : Extent) : (s.skip e).2.bytes = s.bytes := by
  cases e <;> simp [skip, bytes]

@[simp] theorem bytes_readLexeme (s : Scan) : s.readLexeme.2.bytes = s.bytes := by
  have hskip := s.bytes_skip (Gap.extent s.cursor.rest)
  rw [readLexeme]
  split <;> next h => simpa [h] using hskip

@[simp] theorem bytes_readToken (s : Scan) : s.readToken.2.bytes = s.bytes := by
  have hlexeme := s.bytes_readLexeme
  rw [readToken]
  split
  · rfl
  · split <;> next h =>
      rw [h] at hlexeme
      exact hlexeme

/-- A token other than the end leaves fewer bytes ahead. -/
theorem length_rest_readLexeme_lt {s s' : Scan} {token : Token}
    (h : s.readLexeme = (.ok token, s')) (hk : token.isEnd = false) :
    s'.cursor.rest.length < s.cursor.rest.length := by
  simp only [readLexeme] at h
  cases he : Gap.extent s.cursor.rest with
  | unclosed opener => simp [he, skip] at h
  | upTo length =>
    simp only [he, skip, take, Cursor.rest_advanceBy] at h
    obtain ⟨hr, rfl⟩ := Prod.mk.inj h
    cases ho : (Reading.next (s.cursor.rest.drop length)).outcome with
    | error fault => simp [ho] at hr
    | ok lexeme =>
      rw [ho] at hr
      obtain rfl := Except.ok.inj hr
      have := Reading.length_drop_next_lt ho (by simpa [Token.isEnd] using hk)
      simp only [Cursor.rest_advanceBy, List.length_drop] at this ⊢
      omega

theorem readToken_of_failed {s : Scan} {failure : Failure} (h : s.failed = some failure) :
    s.readToken = (.error failure, s) := by
  simp [readToken, h]

theorem readLexeme_of_readToken {s s' : Scan} {token : Token}
    (h : s.readToken = (.ok token, s')) : s.readLexeme = (.ok token, s') := by
  simp only [readToken] at h
  split at h
  · simp at h
  · split at h
    · simp at h
    · next hl => rw [hl, h]

theorem length_rest_readToken_lt {s s' : Scan} {token : Token}
    (h : s.readToken = (.ok token, s')) (hk : token.isEnd = false) :
    s'.cursor.rest.length < s.cursor.rest.length :=
  length_rest_readLexeme_lt (readLexeme_of_readToken h) hk

end Scan

end Lexis

import Lexis.Fault
import Lexis.Numeral
import Lexis.Text.Latin1
import Lexis.Token.Basic

/-! Reading one lexeme at the front of the bytes ahead.
A reading says how many bytes are taken and what they are. The longest lexeme is read: a word and a
number reach to the first byte that cannot continue them, and a symbol of two characters is
preferred. A reading that fails takes the whole of a word or a number, and nothing else. -/
namespace Lexis

structure Lexeme where
  kind : Kind
  payload : Payload
deriving BEq, Repr

structure Reading where
  length : Nat
  outcome : Except Fault Lexeme

namespace Lexeme

def wordLimit : Nat := 32

def ofWord (spelling : String) : Lexeme where
  kind := match Reserved.ofSpelling? spelling with
    | some r => .reserved r
    | none => .identifier
  payload := .word spelling

def ofSymbol (s : Symbol) : Lexeme where
  kind := .symbol s
  payload := .none

def ofInteger (value : Int32) : Lexeme where
  kind := .number
  payload := .integer value

def endOfFile : Lexeme where
  kind := .endOfFile
  payload := .none

end Lexeme

namespace Reading

def word (ahead : List UInt8) : Reading :=
  let run := ahead.takeWhile Byte.isWordByte
  let spelling := Text.latin1 run
  if Lexeme.wordLimit < run.length then
    ⟨run.length, .error (.longIdentifier spelling Lexeme.wordLimit)⟩
  else ⟨run.length, .ok (.ofWord spelling)⟩

def number (ahead : List UInt8) : Reading :=
  let run := ahead.takeWhile Byte.isDigit
  match Numeral.value? run with
  | some value => ⟨run.length, .ok (.ofInteger value)⟩
  | none => ⟨run.length, .error (.numberTooLarge (Text.latin1 run))⟩

def symbol (first : UInt8) (ahead : List UInt8) : Reading :=
  match Symbol.first? ahead with
  | some s => ⟨s.bytes.length, .ok (.ofSymbol s)⟩
  | none => ⟨0, .error (.illegalCharacter (Char.ofUInt8 first) first)⟩

def next (ahead : List UInt8) : Reading :=
  match ahead with
  | [] => ⟨0, .ok .endOfFile⟩
  | first :: _ =>
    if Byte.isWordStart first then word ahead
    else if Byte.isDigit first then number ahead
    else symbol first ahead

@[simp] theorem length_word (ahead : List UInt8) :
    (word ahead).length = (ahead.takeWhile Byte.isWordByte).length := by
  simp only [word]
  split <;> rfl

@[simp] theorem length_number (ahead : List UInt8) :
    (number ahead).length = (ahead.takeWhile Byte.isDigit).length := by
  simp only [number]
  split <;> rfl

/-- A lexeme other than the end takes at least one byte that is there. -/
theorem length_drop_next_lt {ahead : List UInt8} {lexeme : Lexeme}
    (h : (next ahead).outcome = .ok lexeme) (hk : lexeme.kind ≠ .endOfFile) :
    (ahead.drop (next ahead).length).length < ahead.length := by
  cases ahead with
  | nil =>
    have : lexeme = .endOfFile := by simpa [next, eq_comm] using h
    exact absurd (by rw [this]; rfl) hk
  | cons first rest =>
    have hpos : 0 < (next (first :: rest)).length := by
      simp only [next] at h ⊢
      split
      · next hw =>
        simp [Byte.isWordByte_of_isWordStart hw]
      · next hw =>
        rw [if_neg hw] at h
        split
        · next hd => simp [hd]
        · next hd =>
          rw [if_neg hd] at h
          simp only [symbol] at h ⊢
          split
          · exact Symbol.length_bytes_pos _
          · next hn => simp [hn] at h
    simp only [List.length_drop, List.length_cons]
    omega

end Reading

end Lexis

/-! The byte form of text, and the text of bytes that may be malformed.
Decoding reads the bytes from left to right. A sequence that breaks off, at the first byte that
cannot continue it or at the end, becomes one replacement character, and that byte is then read as
the start of something new. So each maximal part of a sequence is replaced once. -/
namespace Lexis.Text

def utf8 (text : String) : List UInt8 :=
  text.toList.flatMap String.utf8EncodeChar

theorem utf8_append (front back : String) : utf8 (front ++ back) = utf8 front ++ utf8 back := by
  rw [utf8, String.toList_append, List.flatMap_append]
  rfl

namespace Utf8

def replacement : Char := '\ufffd'

structure Pending where
  /-- The bits read so far. -/
  bits : Nat
  /-- The number of bytes missing after the next one. -/
  later : Nat
  /-- The least next byte that continues the sequence. -/
  least : UInt8
  /-- The greatest next byte that continues the sequence. -/
  greatest : UInt8
deriving DecidableEq, Repr

inductive Start where
  | character (c : Char)
  | sequence (pending : Pending)
  | nothing
deriving DecidableEq, Repr

/-- What a byte starts. The narrower ranges after four of the lead bytes keep out overlong forms,
surrogates and code points beyond the last one. -/
def start (b : UInt8) : Start :=
  if b < 0x80 then .character (Char.ofUInt8 b)
  else if b < 0xc2 then .nothing
  else if b < 0xe0 then .sequence ⟨b.toNat - 0xc0, 0, 0x80, 0xbf⟩
  else if b < 0xf0 then
    .sequence ⟨b.toNat - 0xe0, 1, if b = 0xe0 then 0xa0 else 0x80, if b = 0xed then 0x9f else 0xbf⟩
  else if b < 0xf5 then
    .sequence ⟨b.toNat - 0xf0, 2, if b = 0xf0 then 0x90 else 0x80, if b = 0xf4 then 0x8f else 0xbf⟩
  else .nothing

structure State where
  decoded : List Char
  pending : Option Pending
deriving DecidableEq, Repr

namespace State

def begin (decoded : List Char) (b : UInt8) : State :=
  match start b with
  | .character c => ⟨c :: decoded, none⟩
  | .sequence p => ⟨decoded, some p⟩
  | .nothing => ⟨replacement :: decoded, none⟩

def next (s : State) (b : UInt8) : State :=
  match s.pending with
  | none => begin s.decoded b
  | some p =>
    if p.least ≤ b ∧ b ≤ p.greatest then
      let bits := p.bits * 64 + (b.toNat - 0x80)
      match p.later with
      | 0 => ⟨Char.ofNat bits :: s.decoded, none⟩
      | later + 1 => ⟨s.decoded, some ⟨bits, later, 0x80, 0xbf⟩⟩
    -- The byte is read once more, outside the sequence that it breaks off.
    else begin (replacement :: s.decoded) b

def finish (s : State) : List Char :=
  match s.pending with
  | none => s.decoded.reverse
  | some _ => (replacement :: s.decoded).reverse

end State

def decode (bytes : List UInt8) : List Char :=
  (bytes.foldl State.next ⟨[], none⟩).finish

end Utf8

def ofUtf8Lossy (bytes : List UInt8) : String :=
  String.ofList (Utf8.decode bytes)

end Lexis.Text

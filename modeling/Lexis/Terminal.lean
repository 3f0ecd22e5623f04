/-! Text without the sequences that steer a terminal.
A sequence starts with the escape character. Most sequences are short: they end at their first
letter, or at another character of a fixed range. Strings addressed to the terminal or to a device
go on until they are terminated. A sequence that is broken off by another escape character, or by
one of the two cancelling characters, is over.

Outside sequences the controls that are white space are kept and all others are dropped. White space
inside a short sequence is kept as well. The text after it is kept up to the next control, where the
sequence is taken up again, unless a character beyond ASCII has come in between. -/
namespace Lexis.Terminal

def escape : Char := '\x1b'

def cancels (c : Char) : Bool :=
  c = '\x18' || c = '\x1a'

def isControl (c : Char) : Bool :=
  c < ' ' || c = '\x7f'

def isSpacing (c : Char) : Bool :=
  c = '\t' || c = '\n' || c = '\x0c' || c = '\r'

def isShown (c : Char) : Bool :=
  !isControl c || isSpacing c

def isAscii (c : Char) : Bool :=
  c < '\u0080'

/-- Whether a character terminates a string. The terminator is the byte 0x9c, wherever it stands in
the bytes of the character. -/
def terminates (c : Char) : Bool :=
  (String.utf8EncodeChar c).contains 0x9c

inductive Short where
  | escape
  /-- At least one character between the space and the slash has followed. -/
  | intermediate
  /-- A bracket has followed. -/
  | bracket
deriving DecidableEq, Repr

inductive State where
  /-- Outside sequences, or after white space that has interrupted one. -/
  | text (interrupted : Option Short)
  | short (sequence : Short)
  /-- At the head of a string for a device. The head cannot be terminated. It ends at the first
  character from `@` on, or at one that stands in the wrong part of it. -/
  | deviceEntry
  | deviceParameter
  | deviceIntermediate
  /-- In a string that ends at its terminator. -/
  | string
  /-- In a string that ends at the bell. -/
  | command
deriving DecidableEq, Repr

def afterEscape (c : Char) : State :=
  if c < '0' then .short .intermediate
  else if c = '[' then .short .bracket
  else if c = ']' then .command
  else if c = 'P' then .deviceEntry
  else if c = 'X' || c = '^' || c = '_' then .string
  else .text none

def Short.next (s : Short) (c : Char) : State :=
  match s with
  | escape => afterEscape c
  | intermediate => if c < '0' then .short s else .text none
  | bracket => if c < '@' then .short s else .text none

namespace State

def next (s : State) (c : Char) : State :=
  match s with
  | text none => s
  | text (some sequence) =>
    if isShown c then (if isAscii c then s else text none) else short sequence
  | short sequence =>
    if isSpacing c then text (some sequence)
    else if isControl c || !isAscii c then s
    else sequence.next c
  | deviceEntry =>
    if isControl c || !isAscii c then s
    else if c < '0' then deviceIntermediate
    else if c < '@' then deviceParameter
    else string
  | deviceParameter =>
    if isControl c || !isAscii c then s
    else if c < '0' then deviceIntermediate
    else if c < '<' then s
    else string
  | deviceIntermediate =>
    if isControl c || !isAscii c then s
    else if c < '0' then s
    else string
  | string => if terminates c then text none else s
  | command => if c = '\x07' then text none else s

def shows (s : State) (c : Char) : Bool :=
  match s with
  | text _ => isShown c
  | short _ => isSpacing c
  | _ => false

def filter (s : State) : List Char → List Char
  | [] => []
  | c :: cs =>
    if c = escape then filter (short .escape) cs
    else if cancels c then filter (text none) cs
    else if s.shows c then c :: filter (s.next c) cs
    else filter (s.next c) cs

end State

def plain (text : String) : String :=
  String.ofList (State.filter (.text none) text.toList)

end Lexis.Terminal

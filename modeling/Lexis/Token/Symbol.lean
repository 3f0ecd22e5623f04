/-! The operators and the punctuation.
A symbol is written with one or two characters. `Symbol.first?` reads the longest one at the front
of the bytes ahead, which is why `all` lists the symbols of two characters first. -/
namespace Lexis

inductive Symbol where
  | emptyArray
  | arrow
  | equals
  | greaterEquals
  | lessEquals
  | notEquals
  | assign
  | greater
  | less
  | negation
  | minus
  | plus
  | divide
  | times
  | modulo
  | dot
  | openBracket
  | closeBracket
  | comma
  | openParen
  | closeParen
  | openCurly
  | closeCurly
  | atSign
deriving DecidableEq, Repr

namespace Symbol

def chars : Symbol → List Char
  | emptyArray => ['[', ']']
  | arrow => ['=', '>']
  | equals => ['=', '=']
  | greaterEquals => ['>', '=']
  | lessEquals => ['<', '=']
  | notEquals => ['!', '=']
  | assign => ['=']
  | greater => ['>']
  | less => ['<']
  | negation => ['!']
  | minus => ['-']
  | plus => ['+']
  | divide => ['/']
  | times => ['*']
  | modulo => ['%']
  | dot => ['.']
  | openBracket => ['[']
  | closeBracket => [']']
  | comma => [',']
  | openParen => ['(']
  | closeParen => [')']
  | openCurly => ['{']
  | closeCurly => ['}']
  | atSign => ['@']

def spelling (s : Symbol) : String :=
  String.ofList s.chars

def bytes (s : Symbol) : List UInt8 :=
  s.chars.map Char.toUInt8

def all : List Symbol :=
  [emptyArray, arrow, equals, greaterEquals, lessEquals, notEquals, assign, greater, less,
    negation, minus, plus, divide, times, modulo, dot, openBracket, closeBracket, comma,
    openParen, closeParen, openCurly, closeCurly, atSign]

def first? (ahead : List UInt8) : Option Symbol :=
  all.find? fun s => s.bytes.isPrefixOf ahead

theorem mem_all (s : Symbol) : s ∈ all := by
  cases s <;> simp [all]

theorem length_bytes_pos (s : Symbol) : 0 < s.bytes.length := by
  cases s <;> decide

theorem length_bytes_le_two (s : Symbol) : s.bytes.length ≤ 2 := by
  cases s <;> decide

theorem bytes_injective {s t : Symbol} (h : s.bytes = t.bytes) : s = t := by
  revert h
  cases s <;> cases t <;> decide

theorem prefix_of_first?_eq_some {ahead : List UInt8} {s : Symbol} (h : first? ahead = some s) :
    s.bytes <+: ahead := by
  simpa using List.find?_some h

theorem not_prefix_of_first?_eq_none {ahead : List UInt8} (h : first? ahead = none)
    (s : Symbol) : ¬ s.bytes <+: ahead := by
  simpa using List.find?_eq_none.1 h s (mem_all s)

end Symbol

end Lexis

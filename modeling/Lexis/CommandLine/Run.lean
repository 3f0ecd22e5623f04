import Lexis.CommandLine.Console
import Lexis.CommandLine.Settings
import Lexis.Dump
import Lexis.SourceFile

/-! A run of the program under given settings. -/
namespace Lexis.CommandLine

/-- An answer writes to the console. It ends in an exit code, or because the output is refused. -/
abbrev Answer := Writing Console SystemError UInt32

structure Outcome where
  code : UInt32
  output : String
  messages : String
deriving DecidableEq, Repr

namespace Settings

def report (s : Settings) (f : Failure) (content : Option String) : Answer := do
  Report.writeFailure Console.complain s.colour f content
  return 1

def dump (s : Settings) (tokens : List Token) : Answer := do
  if s.kinds then
    tokens.forM fun t => Console.print (Dump.line t.position t.kind)
  else
    Console.print (Dump.texts tokens)
  return 0

def answerAfter (s : Settings) (read : List Token) (scan : Scan) : Answer :=
  match h : scan.readToken with
  | (.error failure, scan') => s.report failure (some (Text.ofUtf8Lossy scan'.bytes))
  | (.ok token, scan') =>
    if hk : token.isEnd = true then s.dump (token :: read).reverse
    else
      have := Scan.length_rest_readToken_lt h (by simpa using hk)
      s.answerAfter (token :: read) scan'
termination_by scan.cursor.rest.length

def answer (s : Settings) (content : Except ReadFault (List UInt8)) : Answer :=
  match Scan.ofFile s.path content s.name with
  | .error failure => s.report failure none
  | .ok scan => s.answerAfter [] scan

theorem answerAfter_of_error {scan scan' : Scan} {failure : Failure} {read : List Token}
    (s : Settings) (h : scan.readToken = (.error failure, scan')) :
    s.answerAfter read scan = s.report failure (some (Text.ofUtf8Lossy scan'.bytes)) := by
  rw [answerAfter]
  split <;> simp_all

theorem answerAfter_of_end {scan scan' : Scan} {token : Token} {read : List Token} (s : Settings)
    (h : scan.readToken = (.ok token, scan')) (hk : token.isEnd = true) :
    s.answerAfter read scan = s.dump (token :: read).reverse := by
  rw [answerAfter]
  split <;> simp_all

theorem answerAfter_of_token {scan scan' : Scan} {token : Token} {read : List Token} (s : Settings)
    (h : scan.readToken = (.ok token, scan')) (hk : token.isEnd = false) :
    s.answerAfter read scan = s.answerAfter (token :: read) scan' := by
  rw [answerAfter]
  split <;> simp_all

end Settings

/-- What is seen of an answer, given what keeps the output from being written, if anything does. A
refusal is told on the error stream. -/
def Answer.outcome (obstacle : Option SystemError) (answer : Answer) : Outcome :=
  match Writing.outcome answer (.blank obstacle) with
  | (.ok code, c) => ⟨code, c.output, c.messages⟩
  | (.error e, c) => ⟨1, c.output, c.messages ++ "dium: " ++ e.message ++ "\n"⟩

end Lexis.CommandLine

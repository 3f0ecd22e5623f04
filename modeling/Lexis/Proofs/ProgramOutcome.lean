import Lexis.CommandLine.Run
import Lexis.Proofs.Rejection
import Lexis.Proofs.ReportPieces

/-! What the program makes of a file.
The program reads the tokens in a loop of its own, and the name it is given for the source is not
the one that the file lends to it. It still does what collecting the tokens tells: where there are
tokens it dumps them, and where there is a failure it reports this one and nothing else. -/
namespace Lexis

def Failure.named (name : String) (f : Failure) : Failure :=
  { f with source := name }

namespace Scan

def named (name : String) (s : Scan) : Scan :=
  { s with source := name, failed := s.failed.map (.named name) }

section
variable (name : String) (s : Scan)

theorem cursor_named : (s.named name).cursor = s.cursor := rfl

private theorem take_named (r : Reading) :
    (s.named name).take r = (s.take r).map (.mapError (.named name)) (.named name) := by
  rw [take, take]
  cases r.outcome <;> rfl

private theorem skip_named (e : Extent) :
    (s.named name).skip e = (s.skip e).map (.mapError (.named name)) (.named name) := by
  cases e <;> rfl

private theorem readLexeme_named :
    (s.named name).readLexeme = s.readLexeme.map (.mapError (.named name)) (.named name) := by
  rw [readLexeme, readLexeme, cursor_named, skip_named]
  cases s.skip (Gap.extent s.cursor.rest) with
  | mk outcome s' =>
    cases outcome with
    | error failure => rfl
    | ok => exact take_named name s' _

/-- The name of the source does not matter to a step, except that it is in the failure. -/
theorem readToken_named :
    (s.named name).readToken = s.readToken.map (.mapError (.named name)) (.named name) := by
  have hfailed : (s.named name).failed = s.failed.map (.named name) := rfl
  rw [readToken, readToken, hfailed]
  cases s.failed with
  | some failure => rfl
  | none =>
    rw [readLexeme_named]
    cases s.readLexeme with
    | mk outcome s' => cases outcome <;> rfl

theorem tokensAfter_named (read : List Token) :
    (s.named name).tokensAfter read = (s.tokensAfter read).mapError (.named name) := by
  induction read, s using tokensAfter.induct with
  | case1 read s failure s' h =>
    have hstep := s.readToken_named name
    rw [h] at hstep
    rw [tokensAfter_of_error hstep, tokensAfter_of_error h]
    rfl
  | case2 read s token s' h hk =>
    have hstep := s.readToken_named name
    rw [h] at hstep
    rw [tokensAfter_of_end hstep hk, tokensAfter_of_end h hk]
    rfl
  | case3 read s token s' h hk _ ih =>
    have hstep := s.readToken_named name
    rw [h] at hstep
    have hopen : token.isEnd = false := Bool.eq_false_iff.2 hk
    rw [tokensAfter_of_token hstep hopen, tokensAfter_of_token h hopen]
    exact ih

end

end Scan

namespace CommandLine

namespace Settings

def answerTo (s : Settings) (bytes : List UInt8) : Except Failure (List Token) → Answer
  | .error failure => s.report failure (some (Text.ofUtf8Lossy bytes))
  | .ok tokens => s.dump tokens

/-- The loop of the program stops where the collection of the tokens stops. -/
theorem answerAfter_eq (s : Settings) (read : List Token) (scan : Scan) :
    s.answerAfter read scan = s.answerTo scan.bytes (scan.tokensAfter read) := by
  induction read, scan using answerAfter.induct with
  | case1 read scan failure scan' h =>
    have hbytes := scan.bytes_readToken
    rw [h] at hbytes
    rw [s.answerAfter_of_error h, Scan.tokensAfter_of_error h, ← hbytes]
    rfl
  | case2 read scan token scan' h hk =>
    rw [s.answerAfter_of_end h hk, Scan.tokensAfter_of_end h hk]
    rfl
  | case3 read scan token scan' h hk _ ih =>
    have hbytes := scan.bytes_readToken
    rw [h] at hbytes
    have hopen : token.isEnd = false := Bool.eq_false_iff.2 hk
    rw [s.answerAfter_of_token h hopen, Scan.tokensAfter_of_token h hopen, ← hbytes]
    exact ih

theorem answer_eq (s : Settings) (bytes : List UInt8) :
    s.answer (.ok bytes) = s.answerTo bytes
      (Scan.ofBytes bytes (some (s.name.getD s.path.sourceName))).tokens :=
  s.answerAfter_eq [] _

theorem outcome_report (s : Settings) (f : Failure) (content : Option String)
    (obstacle : Option SystemError) :
    (s.report f content).outcome obstacle =
      ⟨1, "", String.join (Report.ofFailure s.colour f content)⟩ := by
  have hwritten : Writing.outcome (Report.writeFailure Console.complain s.colour f content)
      ⟨obstacle, "", ""⟩ =
      (.ok (), ⟨obstacle, "", String.join (Report.ofFailure s.colour f content)⟩) := by
    rw [Report.writeFailure_eq, Writer.outcome_forM_of_append (Console.mk obstacle "")
      (Console.outcome_complain obstacle ""), String.empty_append, Report.join_failurePieces]
  rw [Answer.outcome, Console.blank, report, Writing.outcome_bind_of_ok hwritten]
  rfl

theorem outcome_dump (s : Settings) (tokens : List Token) :
    (s.dump tokens).outcome none =
      ⟨0, if s.kinds then String.join (tokens.map fun t => Dump.line t.position t.kind)
        else Dump.texts tokens, ""⟩ := by
  rw [Answer.outcome, Console.blank, dump]
  cases s.kinds with
  | false => rfl
  | true =>
    have hlines := Writer.outcome_forM_of_append (Console.mk none · "")
      (Console.outcome_print · "" ·) "" (tokens.map fun t => Dump.line t.position t.kind)
    rw [String.empty_append, List.forM_map] at hlines
    rw [if_pos rfl, List.forM_eq_forM, Writing.outcome_bind_of_ok hlines]
    rfl

/-- What is seen of the program where a scan of its source fails. -/
theorem outcome_of_run {settings : Settings} {bytes : List UInt8} {tokens : List Token}
    {failure : Failure}
    (h : (Scan.ofBytes bytes (some (settings.name.getD settings.path.sourceName))).Run tokens
      (.error failure)) (obstacle : Option SystemError) :
    (settings.answer (.ok bytes)).outcome obstacle = ⟨1, "", String.join
      (Report.ofFailure settings.colour failure (some (Text.ofUtf8Lossy bytes)))⟩ := by
  rw [answer_eq, h.tokens_eq]
  exact settings.outcome_report _ _ obstacle

private theorem tokens_eq_mapError_tokenizeFile (path : Path) (bytes : List UInt8) (name : String) :
    (Scan.ofBytes bytes (some name)).tokens =
      (tokenizeFile path (.ok bytes)).mapError (.named name) :=
  (Scan.ofBytes bytes (some path.sourceName)).tokensAfter_named name []

theorem outcome_of_tokenizeFile_ok {s : Settings} {content : Except ReadFault (List UInt8)}
    {tokens : List Token} (h : tokenizeFile s.path content = .ok tokens) :
    (s.answer content).outcome none =
      ⟨0, if s.kinds then String.join (tokens.map fun t => Dump.line t.position t.kind)
        else Dump.texts tokens, ""⟩ := by
  cases content with
  | error fault => cases h
  | ok bytes =>
    rw [answer_eq, tokens_eq_mapError_tokenizeFile s.path, h]
    exact s.outcome_dump tokens

theorem outcome_of_tokenizeFile_error {s : Settings} {content : Except ReadFault (List UInt8)}
    {failure : Failure} (h : tokenizeFile s.path content = .error failure)
    (obstacle : Option SystemError) :
    (s.answer content).outcome obstacle = ⟨1, "", String.join (Report.ofFailure s.colour
      { failure with source := s.name.getD failure.source }
      (content.toOption.map Text.ofUtf8Lossy))⟩ := by
  cases content with
  | error fault =>
    cases h
    exact s.outcome_report _ none obstacle
  | ok bytes =>
    -- Without a name for the source the failure has the name that the file lends to it.
    have hown : tokenizeFile s.path (.ok bytes) =
        (tokenizeFile s.path (.ok bytes)).mapError (.named s.path.sourceName) :=
      tokens_eq_mapError_tokenizeFile s.path bytes s.path.sourceName
    rw [h] at hown
    obtain ⟨fault, position, source⟩ := failure
    obtain rfl : source = s.path.sourceName := congrArg Failure.source (Except.error.inj hown)
    rw [answer_eq, tokens_eq_mapError_tokenizeFile s.path, h]
    exact s.outcome_report _ _ obstacle

end Settings

theorem exists_of_tokenizeFile_ok {path : Path} {content : Except ReadFault (List UInt8)}
    {tokens : List Token} (h : tokenizeFile path content = .ok tokens) :
    ∃ front last, tokens = front ++ [last] ∧ last.isEnd = true ∧
      ∀ token ∈ front, token.isEnd = false := by
  cases content with
  | error fault => cases h
  | ok bytes =>
    have hread : (Scan.ofBytes bytes (some path.sourceName)).tokens = .ok tokens := h
    obtain ⟨front, last, rfl, hrun⟩ := Scan.exists_run_of_tokens_eq_ok hread
    have hend := hrun.isEnd
    obtain ⟨_, _, hreads, -⟩ := hrun
    exact ⟨front, last, rfl, hend, hreads.isEnd_eq_false⟩

theorem texts_append_end {front : List Token} {last : Token}
    (hfront : ∀ token ∈ front, token.isEnd = false) (hlast : last.isEnd = true) :
    Dump.texts (front ++ [last]) = " ".intercalate (front.map Token.text) ++ "\n" := by
  have hkept : front.filter (fun t => !t.isEnd) = front :=
    List.filter_eq_self.2 fun t ht => by rw [hfront t ht]; rfl
  have hdropped : [last].filter (fun t => !t.isEnd) = [] := by
    rw [List.filter_singleton, hlast]
    rfl
  rw [Dump.texts, List.filter_append, hkept, hdropped, List.append_nil]

/-- The outcome of the program in terms of what the library gives for the file. If the file is
tokenized, no message is written, and the output is a line for each of its tokens, the end included,
or one line with the texts of the tokens before the end. If it is not, then, however many tokens
there are before the failure, nothing is written to the output, and the message is the report of
this failure, in which the source has the name given to the program. -/
theorem outcome_eq_of_tokenizeFile (s : Settings) (content : Except ReadFault (List UInt8)) :
    match tokenizeFile s.path content with
    | .ok tokens => ∃ front last, tokens = front ++ [last] ∧ last.isEnd = true ∧
        (∀ token ∈ front, token.isEnd = false) ∧
        (s.answer content).outcome none = ⟨0,
          if s.kinds then
            String.join (tokens.map fun t => toString t.position.line.toNat ++ ":" ++
              toString t.position.column.toNat ++ " " ++ t.kind.name ++ "\n")
          else " ".intercalate (front.map Token.text) ++ "\n", ""⟩
    | .error failure => ∀ obstacle, (s.answer content).outcome obstacle =
        ⟨1, "", String.join (Report.ofFailure s.colour
          { failure with source := s.name.getD failure.source }
          (content.toOption.map Text.ofUtf8Lossy))⟩ := by
  cases hread : tokenizeFile s.path content with
  | ok tokens =>
    obtain ⟨front, last, rfl, hlast, hfront⟩ := exists_of_tokenizeFile_ok hread
    refine ⟨front, last, rfl, hlast, hfront, ?_⟩
    rw [Settings.outcome_of_tokenizeFile_ok hread, texts_append_end hfront hlast]
    rfl
  | error failure => exact Settings.outcome_of_tokenizeFile_error hread

/-- A token has been read before the quote, and yet nothing but the report of the quote is written.
The library finds the same failure under the name that the file lends to the source. With a bracket
in the place of the quote there is nothing but the dump, in the one form or the other. -/
theorem outcome_eq_of_tokenizeFile_quote_and_bracket :
    let s : Settings := ⟨.ofString "code/main.dm", some "shell.dm", true, false, false⟩
    let s' : Settings := { s with kinds := false }
    let quote : Except ReadFault (List UInt8) := .ok (Text.utf8 "a \"")
    let bracket : Except ReadFault (List UInt8) := .ok (Text.utf8 "a [")
    tokenizeFile s.path quote =
        .error ⟨.illegalCharacter '"' 0x22, some ⟨1, 3⟩, "main.dm"⟩ ∧
      (s.answer quote).outcome none =
        ⟨1, "", "shell.dm: 1:3 Error: Illegal character '\"' (ASCII #34) found\n" ++
          "  |\n1 | a \"\n  | --^\n"⟩ ∧
      tokenizeFile s.path bracket = .ok [⟨.identifier, .word "a", ⟨1, 1⟩⟩,
        ⟨.symbol .openBracket, .none, ⟨1, 3⟩⟩, ⟨.endOfFile, .none, ⟨1, 4⟩⟩] ∧
      (s.answer bracket).outcome none =
        ⟨0, "1:1 identifier\n1:3 '['\n1:4 end-of-file\n", ""⟩ ∧
      (s'.answer bracket).outcome none = ⟨0, "a '['\n", ""⟩ := by
  intro s s' quote bracket
  have hword : Lexeme.Spelled ⟨.identifier, .word "a"⟩ (Text.utf8 "a") :=
    .identifier (by decide) (by decide) (by decide)
  have hspace (rest : List UInt8) : Gap.Fills (Text.utf8 " ") rest := .blank (by decide) .nil
  have hsource : s.path.sourceName = "main.dm" := by decide
  have hquote : tokenizeFile s.path quote =
      .error ⟨.illegalCharacter '"' 0x22, some ⟨1, 3⟩, "main.dm"⟩ := by
    obtain ⟨hblank, hstart⟩ := not_startsLexeme (b := 0x22) (.inl rfl)
    have hrejected : Rejected (Text.utf8 "a \"")
        (.cons [] (Text.utf8 "a") ⟨.identifier, .word "a"⟩ (.last (Text.utf8 " ")))
        (Text.utf8 "\"") [] (.illegalCharacter '"' 0x22) 0 :=
      ⟨rfl, .cons .nil hword (by decide) (.last (hspace _)), .illegal hblank hstart rfl⟩
    have hcollected : tokenizeFile s.path quote = _ :=
      (hrejected.run (some s.path.sourceName)).tokens_eq
    rw [hsource] at hcollected
    exact hcollected
  have hbracket : tokenizeFile s.path bracket = .ok [⟨.identifier, .word "a", ⟨1, 1⟩⟩,
      ⟨.symbol .openBracket, .none, ⟨1, 3⟩⟩, ⟨.endOfFile, .none, ⟨1, 4⟩⟩] := by
    have hfits : Layout.Fits (.cons [] (Text.utf8 "a") ⟨.identifier, .word "a"⟩
        (.cons (Text.utf8 " ") (Text.utf8 "[") (.ofSymbol .openBracket) (.last []))) [] :=
      .cons .nil hword (by decide)
        (.cons (hspace _) (.symbol (by decide) rfl) (by decide) (.last .nil))
    exact (hfits.run _).tokens_eq
  have hfailed := outcome_eq_of_tokenizeFile s quote
  have hkinds := outcome_eq_of_tokenizeFile s bracket
  have htexts := outcome_eq_of_tokenizeFile s' bracket
  rw [hquote] at hfailed
  rw [hbracket] at hkinds
  rw [show s'.path = s.path from rfl, hbracket] at htexts
  obtain ⟨_, _, -, -, -, hlines⟩ := hkinds
  obtain ⟨front, last, htokens, -, -, hline⟩ := htexts
  have hsplit : [_, _] ++ [_] = front ++ [last] := htokens
  obtain ⟨rfl, -⟩ := List.append_inj' hsplit rfl
  exact ⟨hquote, (hfailed none).trans (by decide), hbracket, hlines, hline⟩

end CommandLine

end Lexis

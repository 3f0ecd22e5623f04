import Lexis.Proofs.Excerpts

/-! The lines of a report.
A message quotes what may hold anything, and an excerpt is one line of the source. So whatever a
source holds, its report has as many lines as the report of its fault should have. -/
namespace Lexis

namespace Text

def OneLine (text : String) : Prop :=
  Unbroken text.toList

instance (text : String) : Decidable (OneLine text) :=
  inferInstanceAs (Decidable (Unbroken text.toList))

theorem unbroken_append_iff {a b : List Char} :
    Unbroken (a ++ b) ↔ Unbroken a ∧ Unbroken b :=
  List.forall_mem_append

theorem oneLine_append_iff {a b : String} : OneLine (a ++ b) ↔ OneLine a ∧ OneLine b := by
  rw [OneLine, String.toList_append, unbroken_append_iff]
  rfl

theorem oneLine_ofList {chars : List Char} (h : Unbroken chars) :
    OneLine (String.ofList chars) := by
  rwa [OneLine, String.toList_ofList]

theorem OneLine.lineFeed_not_mem {text : String} (h : OneLine text) : '\n' ∉ text.toList := by
  intro hmem
  have hbreak := h _ hmem
  cases hbreak

/-! Numbers. -/

theorem isLineBreak_digitChar (n : Nat) : isLineBreak n.digitChar = false := by
  rcases Nat.lt_or_ge n 16 with hlt | hge
  · have hall : ∀ n < 16, isLineBreak (Nat.digitChar n) = false := by decide
    exact hall n hlt
  · have hstar : n.digitChar = '*' := by
      rw [Nat.digitChar]
      iterate 16 rw [if_neg (by omega)]
    rw [hstar]
    decide

theorem unbroken_toDigits {base : Nat} (hbase : 1 < base) (n : Nat) :
    Unbroken (Nat.toDigits base n) := by
  induction n using Nat.strongRecOn with
  | ind n ih =>
    have hdigit (d : Nat) : Unbroken [d.digitChar] := unbroken_nil.cons (isLineBreak_digitChar d)
    rw [Nat.toDigits_eq_if hbase]
    split
    · exact hdigit n
    · next hle =>
      have hlt : n / base < n := Nat.div_lt_self (by omega) hbase
      exact unbroken_append_iff.2 ⟨ih _ hlt, hdigit _⟩

theorem oneLine_toString (n : Nat) : OneLine (toString n) := by
  rw [OneLine, Nat.toString_eq_repr, Nat.toList_repr]
  exact unbroken_toDigits (by decide) n

/-! Quoted texts, and lines that are looked up. -/

theorem unbroken_escape (c : Char) : Unbroken (escape c) := by
  rw [escape]
  split
  · decide
  split
  · decide
  split
  · decide
  next hlf =>
    split
    · decide
    next hcr =>
      split
      · decide
      split
      · decide
      split
      · exact unbroken_nil.cons (isLineBreak_eq_false_iff.2 ⟨hlf, hcr⟩)
      · have hdigits : Unbroken (Nat.toDigits 16 c.toNat) := unbroken_toDigits (by decide) _
        rw [unbroken_append_iff, unbroken_append_iff]
        exact ⟨⟨by decide, hdigits⟩, by decide⟩

theorem oneLine_latin1 {bytes : List UInt8} (h : Unbroken bytes) : OneLine (latin1 bytes) := by
  rw [OneLine, toList_latin1]
  intro c hc
  obtain ⟨b, hb, rfl⟩ := List.mem_map.1 hc
  exact Utf8.isLineBreak_ofUInt8 (h b hb)

/-- A text may hold line breaks, but not between quotes. -/
theorem oneLine_quoted (text : String) : OneLine (quoted text) := by
  apply oneLine_ofList
  have hescaped : Unbroken (text.toList.flatMap escape) := by
    intro c hc
    obtain ⟨d, -, hc⟩ := List.mem_flatMap.1 hc
    exact unbroken_escape d c hc
  exact Unbroken.cons (by decide) (unbroken_append_iff.2 ⟨hescaped, by decide⟩)

end Text

open Text

/-- A line that is looked up is one. -/
theorem oneLine_of_lineOf? {content line : String} {number : UInt32}
    (h : lineOf? content number = some line) : OneLine line := by
  obtain ⟨hsplit, hjoined⟩ := split_lines content.toList
  rw [lineOf?, ← hjoined, hsplit.line?_joined] at h
  obtain ⟨text, htext, rfl⟩ := Option.map_eq_some_iff.1 h
  split at htext
  · cases htext
  · obtain ⟨l, hl, rfl⟩ := Option.map_eq_some_iff.1 htext
    obtain ⟨front, back, hlines⟩ := List.append_of_mem (List.mem_of_getElem? hl)
    rw [hlines] at hsplit
    exact oneLine_ofList hsplit.of_append.of_cons.1

/-! The parts of a report. -/

theorem oneLine_toString_position (p : Position) : OneLine (toString p) := by
  change OneLine (toString p.line.toNat ++ ":" ++ toString p.column.toNat)
  simp only [oneLine_append_iff, oneLine_toString]
  decide

/-- Every tip is one line. -/
theorem Fault.oneLine_tip {fault : Fault} {tip : String} (h : fault.tip? = some tip) :
    OneLine tip := by
  cases fault with
  | unreadable | illegalCharacter => cases h
  | unclosedComment =>
    obtain rfl := Option.some.inj h
    decide
  | longIdentifier spelling limit =>
    obtain rfl := Option.some.inj h
    simp only [oneLine_append_iff, oneLine_toString]
    decide
  | numberTooLarge =>
    obtain rfl := Option.some.inj h
    decide

/-- The message of an offence is one line: white space is never illegal, a word is quoted, and a
number consists of digits. -/
theorem Offence.oneLine_message {item after : List UInt8} {fault : Fault} {offset : Nat}
    (h : Offence item after fault offset) : OneLine fault.message := by
  cases h with
  | @illegal b shown _ hblank _ hshown =>
    have hbreak : isLineBreak shown = false := by
      rw [← ofUInt8_eq_of_toNat_eq hshown]
      exact Utf8.isLineBreak_ofUInt8 (Gap.isLineBreak_of_not_mem_whiteSpace hblank)
    have hsingle : OneLine (String.singleton shown) := by
      rw [OneLine, String.toList_singleton]
      exact unbroken_nil.cons hbreak
    change OneLine ("Illegal character '" ++ String.singleton shown ++ "' (ASCII #" ++
      toString b.toNat ++ ") found")
    simp only [oneLine_append_iff, oneLine_toString, hsingle]
    decide
  | long =>
    change OneLine ("Identifier " ++ quoted _ ++ " is longer than " ++ toString 32 ++
      " characters")
    simp only [oneLine_append_iff, oneLine_quoted, oneLine_toString]
    decide
  | @large literal _ _ hrun _ =>
    have hascii : ∀ b ∈ utf8 literal, b.toNat < 128 := fun b hb =>
      Byte.toNat_lt_of_isDigit (hrun.all b hb)
    have hdigits : Unbroken (utf8 literal) := fun b hb =>
      Gap.isLineBreak_of_not_mem_whiteSpace
        (Gap.not_mem_whiteSpace_of_class (by decide) (hrun.all b hb))
    have hliteral : OneLine literal := latin1_utf8 hascii ▸ oneLine_latin1 hdigits
    change OneLine ("Number " ++ literal ++ " is too large")
    simp only [oneLine_append_iff, hliteral]
    decide
  | unclosed => decide

/-- The kinds of offences, of which only an illegal character comes without a tip. -/
theorem Offence.fault_cases {item after : List UInt8} {fault : Fault} {offset : Nat}
    (h : Offence item after fault offset) :
    ((∃ shown code, fault = .illegalCharacter shown code) ∧ fault.tip? = none) ∨
      (((∃ spelling limit, fault = .longIdentifier spelling limit) ∨
        (∃ literal, fault = .numberTooLarge literal) ∨ fault = .unclosedComment) ∧
        ∃ tip, fault.tip? = some tip) := by
  cases h with
  | illegal => exact .inl ⟨⟨_, _, rfl⟩, rfl⟩
  | long => exact .inr ⟨.inl ⟨_, _, rfl⟩, _, rfl⟩
  | large => exact .inr ⟨.inr (.inl ⟨_, rfl⟩), _, rfl⟩
  | unclosed => exact .inr ⟨.inr (.inr rfl), _, rfl⟩

namespace Report

/-- The first line of a report is the name of the source, and then no line break. -/
theorem exists_ofDiagnostic_eq (colour : Bool) {d : Diagnostic} {p : Position}
    (hp : d.position = some p) (hmessage : OneLine d.message) :
    ∃ heading, OneLine heading ∧ ofDiagnostic colour d = d.source ++ heading ++ "\n" := by
  refine ⟨": " ++ toString p ++ " " ++ d.severity.render colour ++ ": " ++ d.message, ?_, ?_⟩
  · have hseverity : OneLine (d.severity.render colour) := by
      cases colour <;> cases d.severity <;> decide
    simp only [oneLine_append_iff, oneLine_toString_position, hseverity, hmessage]
    decide
  · rw [ofDiagnostic, hp, place]
    simp only [String.append_assoc]

def excerptLines (line : String) (p : Position) : List String :=
  let number := toString p.line.toNat
  [bar number, number ++ " | " ++ line, bar number ++ " " ++ lead line p.column ++ "^"]

theorem excerpt_eq_map (line : String) (p : Position) :
    excerpt line p = (excerptLines line p).map (· ++ "\n") := by
  have hcaret : "^" ++ "\n" = "^\n" := rfl
  simp only [excerptLines, List.map_cons, List.map_nil, String.append_assoc, hcaret]
  simp only [excerpt, String.append_assoc]

theorem oneLine_bar (number : String) : OneLine (bar number) := by
  rw [bar, oneLine_append_iff]
  refine ⟨oneLine_ofList ?_, by decide⟩
  intro c hc
  obtain rfl := List.eq_of_mem_replicate hc
  decide

theorem oneLine_lead (line : String) (column : UInt32) : OneLine (lead line column) := by
  intro c hc
  rcases mem_lead hc with rfl | rfl <;> decide

theorem oneLine_of_mem_excerptLines {line : String} (h : OneLine line) (p : Position) :
    ∀ text ∈ excerptLines line p, OneLine text := by
  have hlast : OneLine "^" := by decide
  have hspace : OneLine " " := by decide
  have hbar : OneLine " | " := by decide
  simp only [excerptLines, List.forall_mem_cons, oneLine_append_iff, oneLine_bar, oneLine_lead,
    oneLine_toString, h, hlast, hspace, hbar, and_self, true_and]
  exact nofun

def adviceLines (f : Fault) : List String :=
  f.tip?.toList.map ("tip: " ++ ·)

theorem advice_eq_map (f : Fault) : advice f = (adviceLines f).map (· ++ "\n") := by
  rw [advice, adviceLines]
  cases f.tip? <;> rfl

theorem oneLine_of_mem_adviceLines (f : Fault) : ∀ text ∈ adviceLines f, OneLine text := by
  intro text htext
  obtain ⟨tip, htip, rfl⟩ := List.mem_map.1 htext
  have hfront : OneLine "tip: " := by decide
  exact oneLine_append_iff.2 ⟨hfront, Fault.oneLine_tip (Option.mem_toList.1 htip)⟩

/-- The report of a failure keeps its shape. The fault is placed at a byte that ends no line, and
the line with this place is found in the decoded source, so that the excerpt is there. The report is
four lines for an illegal character, and five for any other fault, of which the last is the tip. The
first line begins with the name of the source, and no line is broken but by what the name holds. -/
theorem ofFailure_lines {bytes : List UInt8} (hn : bytes.length ≤ 2 ^ 32 - 2)
    {name : Option String} (hname : '\n' ∉ (name.getD Scan.defaultSource).toList)
    {tokens : List Token} {failure : Failure}
    (hrun : (Scan.ofBytes bytes name).Run tokens (.error failure)) :
    ∃ (k : Nat) (b : UInt8) (p : Position) (text : String),
      bytes[k]? = some b ∧ b ≠ Byte.lineFeed ∧ b ≠ Byte.carriageReturn ∧
      failure.position = some p ∧ ((Reader.unread bytes).advanceBy (k + 1)).position = p ∧
      lineOf? (ofUtf8Lossy bytes) p.line = some text ∧
      ∀ colour, ∃ lines : List String,
        ofFailure colour failure (some (ofUtf8Lossy bytes)) = lines.map (· ++ "\n") ∧
        (∀ line ∈ lines, '\n' ∉ line.toList) ∧
        (∃ heading, lines.head? = some (name.getD Scan.defaultSource ++ heading) ∧
          OneLine heading) ∧
        (∀ line ∈ lines.tail, OneLine line) ∧
        lines[2]? = some (toString p.line.toNat ++ " | " ++ text) ∧
        (((∃ shown code, failure.fault = .illegalCharacter shown code) ∧ lines.length = 4) ∨
          (((∃ spelling limit, failure.fault = .longIdentifier spelling limit) ∨
              (∃ literal, failure.fault = .numberTooLarge literal) ∨
              failure.fault = .unclosedComment) ∧
            lines.length = 5 ∧
            ∃ tip, failure.fault.tip? = some tip ∧ lines.getLast? = some ("tip: " ++ tip))) := by
  obtain ⟨layout, item, after, offset, hrejected, hposition, hsource⟩ := hrun.exists_rejected
  obtain ⟨b, hb, hbreak⟩ := hrejected.exists_byte
  obtain ⟨hlf, hcr⟩ := isLineBreak_eq_false_iff.1 hbreak
  obtain ⟨front, l, back, place, hwithin⟩ := exists_withinLine hb hbreak
  have hline := hwithin.lineOf?_eq hn
  refine ⟨_, b, _, _, hb, hlf, hcr, hposition, ?_, hline, fun colour => ?_⟩
  · rw [Reader.position_advanceBy_unread_succ, Nat.min_eq_left (Nat.le_of_lt hwithin.index_lt)]
  have hmessage : OneLine failure.diagnostic.message := hrejected.offence.oneLine_message
  obtain ⟨heading, hheading, hfirst⟩ :=
    exists_ofDiagnostic_eq colour (d := failure.diagnostic) hposition hmessage
  have hrest : ∀ line ∈ excerptLines (String.ofList (Utf8.decode l.text))
      (.ofIndex bytes (layout.bytes.length + offset)) ++ adviceLines failure.fault,
      OneLine line := by
    rw [List.forall_mem_append]
    exact ⟨oneLine_of_mem_excerptLines (oneLine_of_lineOf? hline) _,
      oneLine_of_mem_adviceLines _⟩
  refine ⟨(name.getD Scan.defaultSource ++ heading) :: _, ?_, ?_, ⟨heading, rfl, hheading⟩, hrest,
    rfl, ?_⟩
  · rw [ofFailure_eq colour hposition hline, hfirst, excerpt_eq_map, advice_eq_map,
      ← List.map_append, List.map_cons, ← hsource]
    rfl
  · rw [List.forall_mem_cons]
    refine ⟨?_, fun line hmem => (hrest line hmem).lineFeed_not_mem⟩
    rw [String.toList_append, List.mem_append, not_or]
    exact ⟨hname, hheading.lineFeed_not_mem⟩
  · rcases hrejected.offence.fault_cases with ⟨hillegal, htip⟩ | ⟨hother, tip, htip⟩
    · left
      refine ⟨hillegal, ?_⟩
      rw [adviceLines, htip]
      rfl
    · right
      refine ⟨hother, ?_, tip, htip, ?_⟩
      · rw [adviceLines, htip]
        rfl
      · rw [adviceLines, htip]
        rfl

/-- A name may hold a carriage return, and one ends the first line of the source. The report of the
number in the second line has five lines. -/
theorem ofFailure_lines_large_number :
    let bytes := utf8 "\r9999999999"
    let name := "a\rb"
    let failure : Failure := ⟨.numberTooLarge "9999999999", some ⟨2, 1⟩, name⟩
    bytes.length ≤ 2 ^ 32 - 2 ∧ '\n' ∉ name.toList ∧
      (Scan.ofBytes bytes (some name)).Run [] (.error failure) ∧
      ∃ lines : List String,
        ofFailure true failure (some (ofUtf8Lossy bytes)) = lines.map (· ++ "\n") ∧
        (∀ line ∈ lines, '\n' ∉ line.toList) ∧ lines.length = 5 := by
  intro bytes name failure
  have hgap : Gap.Fills (utf8 "\r") (utf8 "9999999999") := .blank (by decide) .nil
  have hoffence : Offence (utf8 "9999999999") [] (.numberTooLarge "9999999999") 0 :=
    .large (by decide) (by decide) (by decide)
  have hrejected : Rejected bytes (.last (utf8 "\r")) (utf8 "9999999999") []
      (.numberTooLarge "9999999999") 0 :=
    ⟨rfl, .last hgap, hoffence⟩
  have hn : bytes.length ≤ 2 ^ 32 - 2 := by decide
  have hname : '\n' ∉ ((some name).getD Scan.defaultSource).toList := by decide
  have hrun : (Scan.ofBytes bytes (some name)).Run [] (.error failure) := hrejected.run (some name)
  refine ⟨hn, hname, hrun, ?_⟩
  obtain ⟨k, b, p, text, -, -, -, -, -, -, hreport⟩ := ofFailure_lines hn hname hrun
  obtain ⟨lines, hlines, hbroken, -, -, -, ⟨⟨_, _, hfault⟩, -⟩ | ⟨-, hlength, -⟩⟩ := hreport true
  · cases hfault
  · exact ⟨lines, hlines, hbroken, hlength⟩

end Report

end Lexis

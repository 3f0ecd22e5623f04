import Lexis.Proofs.Renderings
import Lexis.Proofs.ReportLines

/-! What stands below what in the report of a failure.
There is an excerpt exactly if the line is known, and a tip exactly for some of the faults. However
long the number of the line is, the bars of the excerpt stand below each other, and what leads up to
the caret begins below the text of the line. -/
namespace Lexis.Report

def HasDigits (number digits : Nat) : Prop :=
  0 < digits ∧ number < 10 ^ digits ∧ (digits = 1 ∨ 10 ^ (digits - 1) ≤ number)

/-- What leads up to a column of a text: a tab for each tab and a dash for any other character, as
long as there are places before the column and characters in the text. -/
structure LeadsTo (column : UInt32) (text lead : List Char) : Prop where
  length_eq : lead.length = min (column.toNat - 1) text.length
  getElem?_eq : ∀ i < lead.length,
    lead[i]? = some (if text[i]? = some '\t' then '\t' else '-')

/-- Three lines below each other. The first `digits` places are for a number, in the second line. A
bar stands two places further in each of the lines. Two places behind it begin the text, in the
second line, and what leads up to the caret, in the third. -/
structure Aligned (digits : Nat) (text : List Char) (column : UInt32)
    (top middle bottom : List Char) : Prop where
  blank_top : top.take (digits + 1) = List.replicate (digits + 1) ' '
  blank_bottom : bottom.take (digits + 1) = List.replicate (digits + 1) ' '
  bar_top : top[digits + 1]? = some '|'
  bar_middle : middle[digits + 1]? = some '|'
  bar_bottom : bottom[digits + 1]? = some '|'
  behind_top : top.drop (digits + 2) = ['\n']
  behind_middle : middle.drop (digits + 3) = text ++ ['\n']
  behind_bottom : ∃ lead, LeadsTo column text lead ∧
    bottom.drop (digits + 3) = lead ++ ['^', '\n']

theorem hasDigits_toDigits (number : Nat) : HasDigits number (Nat.toDigits 10 number).length := by
  have hpos : 0 < (Nat.toDigits 10 number).length := Nat.length_toDigits_pos
  refine ⟨hpos, ?_, ?_⟩
  · exact (Nat.length_toDigits_le_iff (by decide) hpos).1 (Nat.le_refl _)
  · rcases Nat.lt_or_ge 1 (Nat.toDigits 10 number).length with hlong | hshort
    · right
      by_contra hlt
      have hle := (Nat.length_toDigits_le_iff (n := number) (by decide) (Nat.sub_pos_of_lt hlong)).2
        (Nat.lt_of_not_le hlt)
      omega
    · left
      omega

theorem leadsTo_lead (text : String) (column : UInt32) :
    LeadsTo column text.toList (lead text column).toList := by
  refine ⟨?_, ?_⟩
  · rw [String.length_toList, length_lead, String.length_toList]
  · intro i hi
    rw [toList_lead, List.length_map] at hi
    have hlt : i < text.toList.length := Nat.lt_of_lt_of_le hi (List.length_take_le' ..)
    rw [toList_lead, List.getElem?_map, List.getElem?_eq_getElem hi, List.getElem_take,
      List.getElem?_eq_getElem hlt]
    simp only [Option.map_some, Option.some.injEq]

theorem toList_bar (number : String) :
    (bar number).toList = List.replicate (number.length + 1) ' ' ++ ['|'] := by
  rw [bar, String.toList_append, String.toList_ofList]
  rfl

private theorem split_at_bar {front : List Char} {digits : Nat} (h : front.length = digits + 1)
    (behind : List Char) :
    (front ++ '|' :: behind).take (digits + 1) = front ∧
      (front ++ '|' :: behind)[digits + 1]? = some '|' ∧
      (front ++ '|' :: behind).drop (digits + 2) = behind ∧
      (front ++ '|' :: behind).drop (digits + 3) = behind.tail := by
  refine ⟨List.take_left' h, ?_, ?_, ?_⟩
  · rw [List.getElem?_append_right (Nat.le_of_eq h), h, Nat.sub_self]
    rfl
  · rw [show digits + 2 = front.length + 1 by omega, List.drop_length_add_append]
    rfl
  · rw [show digits + 3 = front.length + 2 by omega, List.drop_length_add_append]
    exact List.drop_one

/-- The lines of an excerpt are aligned, whatever the number and the column are. -/
theorem aligned_excerpt (number text : String) (column : UInt32) :
    Aligned number.length text.toList column (bar number ++ "\n").toList
      (number ++ " | " ++ text ++ "\n").toList
      (bar number ++ " " ++ lead text column ++ "^\n").toList := by
  have htop : (bar number ++ "\n").toList =
      List.replicate (number.length + 1) ' ' ++ '|' :: ['\n'] := by
    rw [String.toList_append, toList_bar, List.append_assoc]
    rfl
  have hmiddle : (number ++ " | " ++ text ++ "\n").toList =
      (number.toList ++ [' ']) ++ '|' :: ' ' :: (text.toList ++ ['\n']) := by
    simp only [String.toList_append, List.append_assoc]
    rfl
  have hbottom : (bar number ++ " " ++ lead text column ++ "^\n").toList =
      List.replicate (number.length + 1) ' ' ++
        '|' :: ' ' :: ((lead text column).toList ++ ['^', '\n']) := by
    simp only [String.toList_append, toList_bar, List.append_assoc]
    rfl
  have hblank : (List.replicate (number.length + 1) ' ').length = number.length + 1 :=
    List.length_replicate
  have hnumber : (number.toList ++ [' ']).length = number.length + 1 := by
    rw [List.length_append, String.length_toList]
    rfl
  obtain ⟨htake, hbar, hdrop, -⟩ := split_at_bar hblank ['\n']
  obtain ⟨-, hbar', -, hdrop'⟩ := split_at_bar hnumber (' ' :: (text.toList ++ ['\n']))
  obtain ⟨htake'', hbar'', -, hdrop''⟩ :=
    split_at_bar hblank (' ' :: ((lead text column).toList ++ ['^', '\n']))
  rw [htop, hmiddle, hbottom]
  exact ⟨htake, htake'', hbar, hbar', hbar'', hdrop, hdrop', _, leadsTo_lead text column, hdrop''⟩

/-! Which lines there are. -/

theorem failureLine?_eq_some_iff {f : Failure} {content : Option String} {text : String}
    {p : Position} :
    failureLine? f content = some (text, p) ↔ f.position = some p ∧
      ∃ source, content = some source ∧ lineOf? source p.line = some text := by
  simp only [failureLine?, Option.bind_eq_bind, Option.bind_eq_some_iff]
  constructor
  · rintro ⟨q, hposition, source, hcontent, line, hline, hpair⟩
    obtain ⟨rfl, rfl⟩ := Prod.mk.inj (Option.some.inj hpair)
    exact ⟨hposition, source, hcontent, hline⟩
  · rintro ⟨hposition, source, hcontent, hline⟩
    exact ⟨p, hposition, source, hcontent, text, hline, rfl⟩

theorem shown_cases (f : Failure) (content : Option String) :
    (shown f content = [] ∧ ∀ p source, f.position = some p → content = some source →
      lineOf? source p.line = none) ∨
    ∃ p source text, f.position = some p ∧ content = some source ∧
      lineOf? source p.line = some text ∧ shown f content = excerpt text p := by
  cases hline : failureLine? f content with
  | none =>
    left
    refine ⟨by rw [shown, hline], fun p source hposition hcontent => ?_⟩
    rw [Option.eq_none_iff_forall_ne_some]
    intro text htext
    have hsome := failureLine?_eq_some_iff.2 ⟨hposition, source, hcontent, htext⟩
    rw [hline] at hsome
    cases hsome
  | some found =>
    right
    obtain ⟨text, p⟩ := found
    obtain ⟨hposition, source, hcontent, htext⟩ := failureLine?_eq_some_iff.1 hline
    exact ⟨p, source, text, hposition, hcontent, htext, by rw [shown, hline]⟩

theorem advice_eq (f : Fault) :
    advice f = match f with
      | .unclosedComment => ["tip: Every `/-` needs a matching `-/`, including nested comments\n"]
      | .longIdentifier _ limit =>
        ["tip: Identifiers may be at most " ++ toString limit ++ " characters long\n"]
      | .numberTooLarge _ => ["tip: Number literals may not be larger than 2147483647\n"]
      | _ => [] := by
  cases f with
  | unreadable | illegalCharacter | unclosedComment | numberTooLarge => rfl
  | longIdentifier spelling limit =>
    have hfront : "tip: Identifiers may be at most " = "tip: " ++ "Identifiers may be at most " :=
      rfl
    have hend : " characters long\n" = " characters long" ++ "\n" := rfl
    rw [advice, Fault.tip?, hfront, hend]
    simp only [String.append_assoc]

/-- The faults that come with a tip. -/
theorem advice_ne_nil_iff (f : Fault) :
    advice f ≠ [] ↔ f = .unclosedComment ∨
      (∃ spelling limit, f = .longIdentifier spelling limit) ∨
      ∃ literal, f = .numberTooLarge literal := by
  cases f <;> simp [advice, Fault.tip?]

/-! The first line. -/

theorem ofDiagnostic_failure (colour : Bool) (f : Failure) :
    ofDiagnostic colour f.diagnostic = f.source ++ ": " ++
      (match f.position with
        | some p => toString p.line.toNat ++ ":" ++ toString p.column.toNat ++ " "
        | none => "") ++
      (if colour then "\x1b[31mError\x1b[0m" else "Error") ++ ": " ++ f.fault.message ++ "\n" := by
  have hseverity : Severity.error.render colour =
      if colour then "\x1b[31mError\x1b[0m" else "Error" := by
    cases colour <;> rfl
  have hplace : place f.source f.position = f.source ++ ": " ++
      match f.position with
      | some p => toString p.line.toNat ++ ":" ++ toString p.column.toNat ++ " "
      | none => "" := by
    cases f.position with
    | none => exact (String.append_empty).symm
    | some p => exact String.append_assoc
  rw [← hseverity, ← hplace]
  rfl

private theorem count_lineFeed_of_oneLine {text : String} (h : Text.OneLine text) :
    text.toList.count '\n' = 0 :=
  List.count_eq_zero.2 h.lineFeed_not_mem

private theorem count_lineFeed_place (source : String) (position : Option Position) :
    (place source position).toList.count '\n' = source.toList.count '\n' := by
  cases position with
  | none =>
    rw [place, String.toList_append, List.count_append]
    rfl
  | some p =>
    simp only [place, String.toList_append, List.count_append,
      count_lineFeed_of_oneLine (oneLine_toString_position p)]
    rfl

theorem count_lineFeed_ofDiagnostic (colour : Bool) (d : Diagnostic) :
    (ofDiagnostic colour d).toList.count '\n' =
      d.source.toList.count '\n' + d.message.toList.count '\n' + 1 := by
  have hseverity : (d.severity.render colour).toList.count '\n' = 0 := by
    cases colour <;> cases d.severity <;> decide
  simp only [ofDiagnostic, String.toList_append, List.count_append, count_lineFeed_place, hseverity]
  exact congrArg (· + 1) (Nat.add_right_comm ..)

/-- The report of a failure is its line, then an excerpt exactly if the failure has a place, there
is content and the content has the line of this place, and then a tip exactly if the fault is an
open comment, a long word or a large number. The first line is broken by nothing but what the name
of the source and the message hold. The three lines of the excerpt are aligned. -/
theorem ofFailure_columns (colour : Bool) (f : Failure) (content : Option String) :
    ∃ (first : String) (lines tip : List String),
      Writes (ofFailure colour f content) (String.join (first :: (lines ++ tip))) ∧
      first = f.source ++ ": " ++
        (match f.position with
          | some p => toString p.line.toNat ++ ":" ++ toString p.column.toNat ++ " "
          | none => "") ++
        (if colour then "\x1b[31mError\x1b[0m" else "Error") ++ ": " ++ f.fault.message ++ "\n" ∧
      first.toList.count '\n' =
        f.source.toList.count '\n' + f.fault.message.toList.count '\n' + 1 ∧
      ((lines = [] ∧ ∀ p source, f.position = some p → content = some source →
          lineOf? source p.line = none) ∨
        ∃ (p : Position) (source text : String) (digits : Nat) (top middle bottom : String),
          f.position = some p ∧ content = some source ∧ lineOf? source p.line = some text ∧
          lines = [top, middle, bottom] ∧ HasDigits p.line.toNat digits ∧
          middle.toList.take digits = Nat.toDigits 10 p.line.toNat ∧
          Aligned digits text.toList p.column top.toList middle.toList bottom.toList) ∧
      (tip = match f.fault with
        | .unclosedComment =>
          ["tip: Every `/-` needs a matching `-/`, including nested comments\n"]
        | .longIdentifier _ limit =>
          ["tip: Identifiers may be at most " ++ toString limit ++ " characters long\n"]
        | .numberTooLarge _ => ["tip: Number literals may not be larger than 2147483647\n"]
        | _ => []) ∧
      (tip ≠ [] ↔ f.fault = .unclosedComment ∨
        (∃ spelling limit, f.fault = .longIdentifier spelling limit) ∨
        ∃ literal, f.fault = .numberTooLarge literal) := by
  refine ⟨ofDiagnostic colour f.diagnostic, shown f content, advice f.fault, writes_join _,
    ofDiagnostic_failure colour f, count_lineFeed_ofDiagnostic colour f.diagnostic, ?_,
    advice_eq f.fault, advice_ne_nil_iff f.fault⟩
  rcases shown_cases f content with hnone | ⟨p, source, text, hposition, hcontent, hline, hshown⟩
  · exact .inl hnone
  · right
    have hnumber : (toString p.line.toNat).toList = Nat.toDigits 10 p.line.toNat := by
      rw [Nat.toString_eq_repr, Nat.toList_repr]
    have hlength : (toString p.line.toNat).length = (Nat.toDigits 10 p.line.toNat).length := by
      rw [← String.length_toList, hnumber]
    refine ⟨p, source, text, (toString p.line.toNat).length, _, _, _, hposition, hcontent, hline,
      hshown, ?_, ?_, aligned_excerpt _ text p.column⟩
    · rw [hlength]
      exact hasDigits_toDigits _
    · rw [hlength, String.toList_append, String.toList_append, String.toList_append, hnumber,
        List.append_assoc, List.append_assoc]
      exact List.take_left

end Lexis.Report

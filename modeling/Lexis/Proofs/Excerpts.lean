import Lexis.Proofs.FaultPlaces
import Lexis.Proofs.PlaceOrder
import Lexis.Proofs.ProgramOutcome

/-! The excerpt in the report of a failure.
The column of a fault counts the bytes before it in its line, and the excerpt shows the characters
that these bytes were decoded to, of which there are no more. So the caret is under the character
that begins at the fault, or to the right of it. -/
namespace Lexis

namespace Report

/-- Where the line is known, the report is one line for the failure, three for the excerpt, and the
tip. -/
theorem ofFailure_eq (colour : Bool) {f : Failure} {p : Position} {content line : String}
    (hp : f.position = some p) (hline : lineOf? content p.line = some line) :
    ofFailure colour f (some content) =
      ofDiagnostic colour f.diagnostic :: (excerpt line p ++ advice f.fault) := by
  have hshown : failureLine? f (some content) = some (line, p) := by
    rw [failureLine?, hp]
    simp only [Option.bind_eq_bind, Option.bind_some, hline]
    rfl
  rw [ofFailure, shown, hshown]

theorem length_bar (number : String) : (bar number).length = number.length + 2 := by
  rw [bar, String.length_append, String.length_ofList, List.length_replicate]
  rfl

theorem toList_lead (line : String) (column : UInt32) :
    (lead line column).toList =
      (line.toList.take (column.toNat - 1)).map fun c => if c = '\t' then '\t' else '-' :=
  String.toList_ofList

theorem mem_lead {line : String} {column : UInt32} {c : Char} (h : c ∈ (lead line column).toList) :
    c = '\t' ∨ c = '-' := by
  rw [toList_lead] at h
  obtain ⟨d, -, rfl⟩ := List.mem_map.1 h
  split
  · exact .inl rfl
  · exact .inr rfl

theorem length_lead (line : String) (column : UInt32) :
    (lead line column).length = min (column.toNat - 1) line.length := by
  rw [← String.length_toList, toList_lead, List.length_map, List.length_take, String.length_toList]

/-- Where the characters `before` are no more than the places up to the column, the caret is not
left of the character behind them. It is under this character exactly if they are as many, and then
they alone lead up to it. -/
theorem lead_append_cons {before : List Char} {column : UInt32}
    (hfew : before.length ≤ column.toNat - 1) (c : Char) (behind : List Char) :
    let caret := lead (String.ofList (before ++ c :: behind)) column
    before.length ≤ caret.length ∧
      (caret.length = before.length ↔ before.length = column.toNat - 1) ∧
      (before.length = column.toNat - 1 →
        caret.toList = before.map fun c => if c = '\t' then '\t' else '-') := by
  intro caret
  have hlength : caret.length = min (column.toNat - 1) (before.length + (behind.length + 1)) := by
    rw [length_lead, String.length_ofList, List.length_append, List.length_cons]
  refine ⟨by omega, by omega, fun hone => ?_⟩
  rw [toList_lead, String.toList_ofList, List.take_left' hone]

end Report

namespace Report

open Text

/-- The caret in the report of a failure. The excerpt shows the characters before the fault and then
the character that begins at it. The caret stands as many places to the right as there are bytes
before the fault in its line, or at the end of the excerpt if that is nearer. So it is never left of
this character, and under it exactly if each of these bytes has become one character. Then what
leads up to it has a tab for each tab and a dash for any other character. -/
theorem ofFailure_caret {bytes : List UInt8} (hn : bytes.length ≤ 2 ^ 32 - 2)
    {name : Option String} {tokens : List Token} {failure : Failure}
    (hrun : (Scan.ofBytes bytes name).Run tokens (.error failure)) (colour : Bool) :
    ∃ (k : Nat) (p : Position) (text caret first : String) (tips : List String),
      k < bytes.length ∧ failure.position = some p ∧
      (∀ j, j < bytes.length →
        (((Reader.unread bytes).advanceBy (j + 1)).position = p ↔ j = k)) ∧
      let start := Position.lineStart bytes k
      let before := Utf8.decode ((bytes.take k).drop start)
      let number := toString p.line.toNat
      lineOf? (ofUtf8Lossy bytes) p.line = some text ∧
      ofFailure colour failure (some (ofUtf8Lossy bytes)) =
        first :: (bar number ++ "\n") :: (number ++ " | " ++ text ++ "\n") ::
          (bar number ++ " " ++ caret ++ "^\n") :: tips ∧
      (number ++ " | ").length = (bar number ++ " ").length ∧
      Utf8.decode bytes = Utf8.decode (bytes.take k) ++ Utf8.decode (bytes.drop k) ∧
      (∃ c behind, text.toList = before ++ c :: behind ∧
        (Utf8.decode (bytes.drop k)).head? = some c) ∧
      caret.length = min (k - start) text.length ∧
      (∀ c ∈ caret.toList, c = '\t' ∨ c = '-') ∧
      before.length ≤ caret.length ∧
      (caret.length = before.length ↔ before.length = k - start) ∧
      ((∀ b ∈ (bytes.take k).drop start, b < 0x80) → before.length = k - start) ∧
      (before.length = k - start →
        caret.toList = before.map fun c => if c = '\t' then '\t' else '-') ∧
      ∀ settings : CommandLine.Settings, settings.colour = colour →
        name = some (settings.name.getD settings.path.sourceName) →
        ∀ obstacle, (settings.answer (.ok bytes)).outcome obstacle = ⟨1, "", String.join
          (ofFailure colour failure (some (ofUtf8Lossy bytes)))⟩ := by
  obtain ⟨k, front, l, back, offset, hwithin, hseam, hposition⟩ := hrun.exists_withinLine
  obtain ⟨c, behind, htext, hhead⟩ := hwithin.decode_text_eq hseam
  have hk := hwithin.index_lt
  have hline := hwithin.lineOf?_eq hn
  have hbefore := hwithin.drop_take_eq hn
  have hoffset : k - Position.lineStart bytes k = offset := by
    rw [hwithin.lineStart_eq hn, hwithin.index_eq, Nat.add_sub_cancel_left]
  have hcolumn : (Position.ofIndex bytes k).column.toNat - 1 = offset := by
    rw [(hwithin.ofIndex_eq hn).2, Nat.add_sub_cancel]
  -- Bytes are decoded to no more characters, so the caret never stops short of its character.
  have hfew : (Utf8.decode (l.text.take offset)).length ≤
      (Position.ofIndex bytes k).column.toNat - 1 := by
    rw [hcolumn]
    exact (Utf8.length_decode_le _).trans (List.length_take_le ..)
  obtain ⟨hright, hunder, hcaret⟩ := lead_append_cons hfew c behind
  rw [← htext] at hright hunder hcaret
  rw [hcolumn] at hunder hcaret
  refine ⟨k, .ofIndex bytes k, String.ofList (Utf8.decode l.text), _, _, _, hk, hposition, ?_,
    hline, ofFailure_eq colour hposition hline, ?_, ?_, ⟨c, behind, ?_, hhead⟩, ?_,
    fun _ => mem_lead, ?_, ?_, ?_, ?_, ?_⟩
  · intro j hj
    rw [Reader.position_advanceBy_unread_succ, Nat.min_eq_left (Nat.le_of_lt hj)]
    refine ⟨Position.ofIndex_injective hn (Nat.le_of_lt hj) (Nat.le_of_lt hk), ?_⟩
    rintro rfl
    rfl
  · rw [String.length_append, String.length_append, length_bar]
    rfl
  · rw [← Utf8.decode_append hseam, List.take_append_drop]
  · rw [String.toList_ofList, hbefore, htext]
  · rw [length_lead, hcolumn, hoffset]
  · rwa [hbefore]
  · rwa [hbefore, hoffset]
  · intro hascii
    rw [hbefore] at hascii ⊢
    have hmap := Utf8.decode_eq_map fun b hb => UInt8.lt_iff_toNat_lt.1 (hascii b hb)
    rw [hmap, List.length_map, List.length_take_of_le (Nat.le_of_lt hwithin.offset_lt), hoffset]
  · rwa [hbefore, hoffset]
  · rintro settings rfl rfl obstacle
    exact CommandLine.Settings.outcome_of_run hrun obstacle

/-- The quote is the seventh character and the eighth byte, so that the caret is one place to the
right of it. -/
theorem ofFailure_caret_behind_accent :
    let bytes := utf8 "/-é-/\t\""
    let failure : Failure := ⟨.illegalCharacter '"' 0x22, some ⟨1, 8⟩, Scan.defaultSource⟩
    bytes.length ≤ 2 ^ 32 - 2 ∧ (Scan.ofBytes bytes none).Run [] (.error failure) ∧
      ∃ first caret tips, ofFailure false failure (some (ofUtf8Lossy bytes)) =
          first :: "  |\n" :: "1 | /-é-/\t\"\n" :: ("  | " ++ caret ++ "^\n") :: tips ∧
        caret.length = 7 := by
  intro bytes failure
  obtain ⟨hblank, hstart⟩ := not_startsLexeme (b := 0x22) (.inl rfl)
  have haccent : Comment.Inside (utf8 "é") Comment.closing :=
    .other (by decide) (by decide) (.other (by decide) (by decide) .nil)
  have hgap : Gap.Fills (utf8 "/-é-/" ++ utf8 "\t") (utf8 "\"") :=
    .block ⟨_, haccent, rfl⟩ (.blank (by decide) .nil)
  have hrejected : Rejected bytes (.last (utf8 "/-é-/" ++ utf8 "\t")) (utf8 "\"") []
      (.illegalCharacter '"' 0x22) 0 :=
    ⟨rfl, .last hgap, .illegal hblank hstart rfl⟩
  have hn : bytes.length ≤ 2 ^ 32 - 2 := by decide
  have hrun : (Scan.ofBytes bytes none).Run [] (.error failure) := hrejected.run none
  refine ⟨hn, hrun, ?_⟩
  obtain ⟨k, p, text, caret, first, tips, -, hp, hplace, hline, hreport, -, -, -, hcaret, -⟩ :=
    ofFailure_caret hn hrun false
  obtain rfl := Option.some.inj hp
  obtain rfl : 7 = k := (hplace 7 (by decide)).1 (by decide)
  have htext : lineOf? (ofUtf8Lossy bytes) 1 = some "/-é-/\t\"" := by decide
  obtain rfl := Option.some.inj (htext.symm.trans hline)
  refine ⟨first, caret, tips, hreport.trans ?_, hcaret.trans ?_⟩
  · rfl
  · decide

end Report

end Lexis

import Lexis.Proofs.TokenRun

/-! Splits of a source into gaps and lexemes.
A layout lists the gaps and the lexemes of a source in turn. Every source has one up to its first
offence, and a scan reads from it the tokens that the layout lists. -/
namespace Lexis

inductive Layout
  | last (gap : List UInt8)
  | cons (gap text : List UInt8) (l : Lexeme) (behind : Layout)

namespace Layout

def bytes : Layout → List UInt8
  | last gap => gap
  | cons gap text _ behind => gap ++ (text ++ behind.bytes)

/-- In front of `after`, all gaps are gaps, all lexemes are spelled as they stand there, and none is
continued by what follows it. -/
inductive Fits : Layout → List UInt8 → Prop
  | last {gap after} (hgap : Gap.Fills gap after) : Fits (last gap) after
  | cons {gap text l behind after} (hgap : Gap.Fills gap (text ++ (behind.bytes ++ after)))
      (hspelled : l.Spelled text) (hstops : l.Stops (behind.bytes ++ after))
      (hbehind : Fits behind after) : Fits (cons gap text l behind) after

/-- The lexemes of a layout that begins at an index of the source, each at its first byte. -/
def tokensFrom (source : List UInt8) (i : Nat) : Layout → List Token
  | last _ => []
  | cons gap text l behind =>
    ⟨l.kind, l.payload, .ofIndex source (i + gap.length)⟩ ::
      behind.tokensFrom source (i + gap.length + text.length)

def tokens (layout : Layout) : List Token :=
  layout.tokensFrom layout.bytes 0

def append : Layout → Layout → Layout
  | last gap, last gap' => last (gap ++ gap')
  | last gap, cons gap' text l behind => cons (gap ++ gap') text l behind
  | cons gap text l behind, layout => cons gap text l (behind.append layout)

theorem bytes_append (front back : Layout) :
    (front.append back).bytes = front.bytes ++ back.bytes := by
  induction front with
  | last gap => cases back <;> simp only [append, bytes, List.append_assoc]
  | cons gap text l behind ih => simp only [append, bytes, ih, List.append_assoc]

theorem Fits.append {front back : Layout} {after : List UInt8}
    (h : front.Fits (back.bytes ++ after)) (hback : back.Fits after) :
    (front.append back).Fits after := by
  generalize hrest : back.bytes ++ after = rest at h
  induction h with
  | last hgap =>
    subst hrest
    cases hback with
    | last hgap' => exact .last (hgap.append hgap')
    | cons hgap' hspelled hstops hfits =>
      rw [bytes, List.append_assoc, List.append_assoc] at hgap
      exact .cons (hgap.append hgap') hspelled hstops hfits
  | @cons _ _ _ behind _ hgap hspelled hstops _ ih =>
    subst hrest
    rw [← List.append_assoc behind.bytes, ← bytes_append] at hgap hstops
    exact .cons hgap hspelled hstops (ih rfl)

/-- Only the first byte behind a layout matters to it. -/
theorem Fits.congr {layout : Layout} {after after' : List UInt8} (h : layout.Fits after)
    (hhead : after.head? = after'.head?) : layout.Fits after' := by
  induction h with
  | last hgap => exact .last (hgap.congr hhead)
  | cons hgap hspelled hstops _ ih =>
    refine .cons (hgap.congr ?_) hspelled ?_ (ih hhead)
    · simp only [List.head?_append, hhead]
    · rwa [Lexeme.Stops, List.head?_append, ← hhead, ← List.head?_append]

/-- The places of the lexemes depend on nothing behind the layout. -/
theorem Fits.tokensFrom_append {layout : Layout} {after front : List UInt8} {i : Nat}
    (h : layout.Fits after) (hi : i + layout.bytes.length ≤ front.length) (back : List UInt8) :
    layout.tokensFrom (front ++ back) i = layout.tokensFrom front i := by
  induction h generalizing i with
  | last => rfl
  | @cons gap text l behind after _ hspelled _ _ ih =>
    have hpos : 0 < text.length := List.length_pos_iff.2 hspelled.ne_nil
    simp only [bytes, List.length_append] at hi
    rw [tokensFrom, tokensFrom, Position.ofIndex_append (by omega), ih (by omega)]

/-- Every source is a layout up to its end or to its first offence. -/
theorem exists_fits (ahead : List UInt8) :
    ∃ layout rest, ahead = bytes layout ++ rest ∧ layout.Fits rest ∧
      (rest = [] ∨ Offends rest) := by
  induction hn : ahead.length using Nat.strongRecOn generalizing ahead with
  | ind n ih =>
    subst hn
    obtain ⟨gap, rest, rfl, hgap, hclear | ⟨offset, hopen⟩⟩ := Gap.exists_fills ahead
    · rcases leads_or_offends hclear with
        rfl | ⟨l, text, after, rfl, hspelled, hstops⟩ | hoffends
      · exact ⟨.last gap, [], rfl, .last hgap, .inl rfl⟩
      · -- A lexeme takes at least one byte, so that what is left is shorter.
        have hpos : 0 < text.length := List.length_pos_iff.2 hspelled.ne_nil
        have hlt : after.length < (gap ++ (text ++ after)).length := by
          simp only [List.length_append]
          omega
        obtain ⟨behind, rest, rfl, hfits, hrest⟩ := ih _ hlt after rfl
        refine ⟨.cons gap text l behind, rest, ?_, .cons hgap hspelled hstops hfits, hrest⟩
        simp only [bytes, List.append_assoc]
      · exact ⟨.last gap, rest, rfl, .last hgap, .inr hoffends⟩
    · have hoffence : Offence rest [] .unclosedComment offset := .unclosed hopen
      exact ⟨.last gap, rest, rfl, .last hgap,
        .inr ⟨rest, [], _, offset, (List.append_nil rest).symm, hoffence⟩⟩

/-- Where a layout begins, its first gap and lexeme stand, and behind them the rest of it. -/
theorem drop_of_cons {bytes gap text after : List UInt8} {l : Lexeme} {behind : Layout} {i : Nat}
    (hi : i ≤ bytes.length) (hdrop : bytes.drop i = (cons gap text l behind).bytes ++ after) :
    bytes.drop i = gap ++ (text ++ (behind.bytes ++ after)) ∧
      bytes.drop (i + gap.length + text.length) = behind.bytes ++ after ∧
      i + gap.length + text.length ≤ bytes.length := by
  have hsplit : bytes.drop i = gap ++ (text ++ (behind.bytes ++ after)) := by
    rw [hdrop, Layout.bytes, List.append_assoc, List.append_assoc]
  refine ⟨hsplit, ?_, ?_⟩
  · rw [← List.drop_drop, ← List.drop_drop, hsplit, List.drop_left, List.drop_left]
  · have hlength := congrArg List.length hsplit
    rw [List.length_drop, List.length_append, List.length_append] at hlength
    omega

theorem isEnd_eq_false_of_spelled {l : Lexeme} {text : List UInt8} (h : l.Spelled text)
    (p : Position) : Token.isEnd ⟨l.kind, l.payload, p⟩ = false :=
  decide_eq_false h.kind_ne_endOfFile

/-- A scan reads the lexemes of a layout and then stands before its last gap. -/
theorem Fits.exists_reads {layout : Layout} {bytes after : List UInt8} {i : Nat}
    (h : layout.Fits after) (hi : i ≤ bytes.length) (hdrop : bytes.drop i = layout.bytes ++ after)
    (name : Option String) :
    ∃ j gap, j ≤ bytes.length ∧ bytes.drop j = gap ++ after ∧ Gap.Fills gap after ∧
      j + gap.length = i + layout.bytes.length ∧
      (Scan.atIndex bytes name i).Reads (layout.tokensFrom bytes i)
        (Scan.atIndex bytes name j) := by
  induction h generalizing i with
  | @last gap after hgap => exact ⟨i, gap, hi, hdrop, hgap, rfl, .nil⟩
  | @cons gap text l behind after hgap hspelled hstops _ ih =>
    obtain ⟨hsplit, hbehind, hle⟩ := drop_of_cons hi hdrop
    have hstep := Scan.readToken_of_spelled hi hsplit hgap hspelled hstops name
    have hkind := isEnd_eq_false_of_spelled hspelled (.ofIndex bytes (i + gap.length))
    obtain ⟨j, last, hj, hrest, hlast, hlength, hrun⟩ := ih hle hbehind
    refine ⟨j, last, hj, hrest, hlast, ?_, .cons hstep hkind hrun⟩
    simp only [hlength, Layout.bytes, List.length_append]
    omega

/-- A scan of a source that begins with a layout. -/
theorem Fits.exists_reads_ofBytes {layout : Layout} {after : List UInt8} (h : layout.Fits after)
    (name : Option String) :
    ∃ j gap, j ≤ (layout.bytes ++ after).length ∧ (layout.bytes ++ after).drop j = gap ++ after ∧
      Gap.Fills gap after ∧ j + gap.length = layout.bytes.length ∧
      (Scan.ofBytes (layout.bytes ++ after) name).Reads layout.tokens
        (Scan.atIndex (layout.bytes ++ after) name j) := by
  obtain ⟨j, gap, hj, hdrop, hgap, hlength, hrun⟩ := h.exists_reads (Nat.zero_le _) rfl name
  rw [h.tokensFrom_append (by omega)] at hrun
  exact ⟨j, gap, hj, hdrop, hgap, by omega, hrun⟩

/-- A scan of a layout reads its lexemes and then the end. -/
theorem Fits.exists_reads_end {layout : Layout} (h : layout.Fits []) (name : Option String) :
    ∃ s s', (Scan.ofBytes layout.bytes name).Reads layout.tokens s ∧
      s.readToken = (.ok ⟨.endOfFile, .none, .ofIndex layout.bytes layout.bytes.length⟩, s') := by
  obtain ⟨j, gap, hj, hdrop, hgap, -, hrun⟩ := h.exists_reads_ofBytes name
  simp only [List.append_nil] at hj hdrop hrun
  exact ⟨_, _, hrun, Scan.readToken_of_end hj hdrop hgap name⟩

theorem Fits.run {layout : Layout} (h : layout.Fits []) (name : Option String) :
    (Scan.ofBytes layout.bytes name).Run layout.tokens
      (.ok ⟨.endOfFile, .none, .ofIndex layout.bytes layout.bytes.length⟩) := by
  obtain ⟨s, s', hrun, hlast⟩ := h.exists_reads_end name
  exact ⟨s, s', hrun, hlast, Scan.ended_of_isEnd hlast rfl⟩

/-- A scan of a layout before an offence reads its lexemes and then fails. -/
theorem Fits.exists_reads_error {layout : Layout} {item after : List UInt8} {fault : Fault}
    {offset : Nat} (h : layout.Fits (item ++ after)) (hoffence : Offence item after fault offset)
    (name : Option String) :
    ∃ s s', (Scan.ofBytes (layout.bytes ++ (item ++ after)) name).Reads layout.tokens s ∧
      s.readToken = (.error ⟨fault, some (.ofIndex (layout.bytes ++ item)
        (layout.bytes.length + offset)), name.getD Scan.defaultSource⟩, s') := by
  obtain ⟨j, gap, hj, hdrop, hgap, hlength, hrun⟩ := h.exists_reads_ofBytes name
  obtain ⟨s', hstep⟩ := Scan.readToken_of_offence hj hdrop hgap hoffence name
  have hlt := hoffence.offset_lt
  rw [hlength, ← List.append_assoc, Position.ofIndex_append (by simp; omega)] at hstep
  rw [← List.append_assoc] at hrun ⊢
  exact ⟨_, s', hrun, hstep⟩

/-- Every layout is read to its end, one token after the other or all at once, and from its bytes
or from a text. The tokens are its lexemes, and the end. -/
theorem tokenize_of_fits {layout : Layout} (h : layout.Fits []) (name : Option String) :
    let last : Token := ⟨.endOfFile, .none, .ofIndex layout.bytes layout.bytes.length⟩
    (∃ s s', (Scan.ofBytes layout.bytes name).Reads layout.tokens s ∧
      s.readToken = (.ok last, s')) ∧
    (Scan.ofBytes layout.bytes name).tokens = .ok (layout.tokens ++ [last]) ∧
    ∀ text, Text.utf8 text = layout.bytes → tokenize text name = .ok (layout.tokens ++ [last]) := by
  intro last
  obtain ⟨s, s', hrun, hlast⟩ := h.exists_reads_end name
  have htokens := hrun.tokens_eq hlast rfl
  refine ⟨⟨s, s', hrun, hlast⟩, htokens, ?_⟩
  intro text htext
  rw [tokenize, htext]
  exact htokens

/-- A comment in a comment, behind a symbol that no slash continues, and a comment at the end. -/
theorem tokenize_of_fits_comments :
    let layout : Layout :=
      .cons [] (Text.utf8 "x") ⟨.identifier, .word "x"⟩
        (.cons [] (Text.utf8 "=") ⟨.symbol .assign, .none⟩
          (.cons (Text.utf8 "/-/-\"-/-/") (Text.utf8 "007") ⟨.number, .integer 7⟩
            (.last (Text.utf8 "//;"))))
    layout.Fits [] ∧
      tokenize "x=/-/-\"-/-/007//;" none =
        .ok [⟨.identifier, .word "x", ⟨1, 1⟩⟩, ⟨.symbol .assign, .none, ⟨1, 2⟩⟩,
          ⟨.number, .integer 7, ⟨1, 12⟩⟩, ⟨.endOfFile, .none, ⟨1, 18⟩⟩] := by
  intro layout
  have hword : Lexeme.Spelled ⟨.identifier, .word "x"⟩ (Text.utf8 "x") :=
    .identifier (by decide) (by decide) (by decide)
  have hsymbol : Lexeme.Spelled ⟨.symbol .assign, .none⟩ (Text.utf8 "=") :=
    .symbol (by decide) rfl
  have hnumber : Lexeme.Spelled ⟨.number, .integer 7⟩ (Text.utf8 "007") :=
    .number (by decide) (List.all_eq_true.1 (by decide)) (by decide)
  have hquote : Comment.Inside [0x22] Comment.closing := .other (by decide) (by decide) .nil
  have hblock : Comment.Block (Text.utf8 "/-/-\"-/-/") := ⟨_, .comment hquote .nil, rfl⟩
  have hline : Comment.Line (Text.utf8 "//;") [] := ⟨[0x3b], by decide, rfl⟩
  have hgap : Gap.Fills (Text.utf8 "/-/-\"-/-/") (Text.utf8 "007//;") :=
    Gap.fills_of_comment (.inr hblock)
  have hlast : Gap.Fills (Text.utf8 "//;") [] := Gap.fills_of_comment (.inl hline)
  have hfits : layout.Fits [] :=
    .cons .nil hword (by decide) (.cons .nil hsymbol (by decide)
      (.cons hgap hnumber (by decide) (.last hlast)))
  obtain ⟨-, -, htext⟩ := tokenize_of_fits hfits none
  exact ⟨hfits, (htext _ rfl).trans rfl⟩

end Layout

end Lexis

import Lexis.Proofs.Spelling

/-! What cannot be read, and how much of it is reported.
Behind a gap stands the end, a lexeme, or an offence: a byte that starts nothing, a word or a number
beyond its limit, or a block comment that stays open. -/
namespace Lexis

def StartsLexeme (b : UInt8) : Prop :=
  ∃ l text, Lexeme.Spelled l text ∧ b ∈ text.head?

/-- `Offence item after fault offset` says that the bytes `item` in front of `after` cannot be read,
because of a fault that is placed at the offset in the item. A word and a number are reported as a
whole, and a comment by the innermost opening mark. -/
inductive Offence : List UInt8 → List UInt8 → Fault → Nat → Prop
  | illegal {b shown after} (hblank : b ∉ Gap.whiteSpace) (hstart : ¬ StartsLexeme b)
      (hshown : shown.toNat = b.toNat) : Offence [b] after (.illegalCharacter shown b) 0
  | long {spelling after} (hword : Lexeme.IsWord (Text.utf8 spelling))
      (hrun : MaximalRun Byte.isWordByte (Text.utf8 spelling) after)
      (hlong : 32 < (Text.utf8 spelling).length) :
      Offence (Text.utf8 spelling) after (.longIdentifier spelling 32) 0
  | large {literal after} (hne : Text.utf8 literal ≠ [])
      (hrun : MaximalRun Byte.isDigit (Text.utf8 literal) after)
      (hlarge : 2147483647 < Numeral.decimal (Text.utf8 literal)) :
      Offence (Text.utf8 literal) after (.numberTooLarge literal) 0
  | unclosed {comment offset} (hopen : Comment.Unclosed comment offset) :
      Offence comment [] .unclosedComment offset

namespace Lexeme

/-- A word of at most 32 bytes is a lexeme. -/
theorem exists_spelled_of_isWord {bytes : List UInt8} (h : IsWord bytes)
    (hlength : bytes.length ≤ 32) :
    ∃ l, Spelled l bytes ∧ l.kind.continuedBy = Byte.isWordByte := by
  have hbytes : Text.utf8 (Text.latin1 bytes) = bytes :=
    Text.utf8_latin1 fun b hb => Byte.toNat_lt_of_isWordByte (h.2 b hb)
  obtain ⟨kind, hkind⟩ := exists_isWordKind (Text.latin1 bytes)
  refine ⟨⟨kind, .word (Text.latin1 bytes)⟩, ?_, hkind.continuedBy⟩
  have hspelled : Spelled ⟨kind, .word (Text.latin1 bytes)⟩ (Text.utf8 (Text.latin1 bytes)) :=
    .word (by rwa [hbytes]) (by rwa [hbytes]) hkind
  rwa [hbytes] at hspelled

/-- A run of digits whose number fits is a lexeme. -/
theorem exists_spelled_of_digits {digits : List UInt8} (hne : digits ≠ [])
    (hdigits : ∀ d ∈ digits, Byte.isDigit d = true)
    (hfits : Numeral.decimal digits ≤ 2147483647) :
    ∃ l, Spelled l digits ∧ l.kind.continuedBy = Byte.isDigit := by
  obtain ⟨value, -, hvalue⟩ := (Numeral.value?_spec hdigits).1 hfits
  exact ⟨⟨.number, .integer value⟩, .number hne hdigits hvalue, rfl⟩

end Lexeme

theorem startsLexeme_iff {b : UInt8} :
    StartsLexeme b ↔
      Byte.isWordStart b = true ∨ Byte.isDigit b = true ∨ ∃ s : Symbol, b ∈ s.bytes.head? := by
  constructor
  · rintro ⟨l, text, hspelled, hb⟩
    rcases hspelled.kinds with ⟨_, _, -, -, hword, -⟩ | ⟨_, -, -, hdigits, -⟩ | ⟨s, -, rfl⟩
    · obtain ⟨c, hc, hstart⟩ := hword.1
      obtain rfl := Option.mem_unique hb hc
      exact .inl hstart
    · exact .inr (.inl (hdigits b (List.mem_of_mem_head? hb)))
    · exact .inr (.inr ⟨s, hb⟩)
  · rintro (hstart | hdigit | ⟨s, hs⟩)
    · have hword : Lexeme.IsWord [b] :=
        ⟨⟨b, rfl, hstart⟩, List.forall_mem_singleton.2 (Byte.isWordByte_of_isWordStart hstart)⟩
      obtain ⟨l, hl, -⟩ := Lexeme.exists_spelled_of_isWord hword (by simp)
      exact ⟨l, [b], hl, rfl⟩
    · have hfits : Numeral.decimal [b] ≤ 2147483647 := by
        have hlt := Byte.digitValue_lt_ten hdigit
        have hdecimal := Numeral.decimal_append_singleton [] b
        rw [List.nil_append, Numeral.decimal_nil] at hdecimal
        omega
      obtain ⟨l, hl, -⟩ := Lexeme.exists_spelled_of_digits (List.cons_ne_nil b [])
        (List.forall_mem_singleton.2 hdigit) hfits
      exact ⟨l, [b], hl, rfl⟩
    · exact ⟨_, _, Lexeme.spelled_ofSymbol s, hs⟩

/-- The two quotes and all bytes that are not ASCII start nothing. -/
theorem not_startsLexeme {b : UInt8} (h : b = 0x22 ∨ b = 0x27 ∨ 0x80 ≤ b) :
    b ∉ Gap.whiteSpace ∧ ¬ StartsLexeme b := by
  have hsymbols : ∀ s ∈ Symbol.all,
      s.bytes.all fun b => decide (b ≠ 0x22 ∧ b ≠ 0x27 ∧ b < 0x80) := by decide
  have hblanks : Gap.whiteSpace.all fun b => decide (b ≠ 0x22 ∧ b ≠ 0x27 ∧ b < 0x80) := by decide
  have hlarge : 0x80 ≤ b → ¬ b.toNat < 128 := fun hb =>
    Nat.not_lt.2 (UInt8.le_iff_toNat_le.1 hb)
  have hword (hb : b.toNat < 128) (hword : Byte.isWordByte b = true) : False := by
    rcases h with rfl | rfl | h
    · exact absurd hword (by decide)
    · exact absurd hword (by decide)
    · exact hlarge h hb
  have hnone (hb : b ≠ 0x22 ∧ b ≠ 0x27 ∧ b < 0x80) : False := by
    rcases h with h | h | h
    · exact hb.1 h
    · exact hb.2.1 h
    · exact hlarge h (UInt8.lt_iff_toNat_lt.1 hb.2.2)
  refine ⟨fun hb => hnone (of_decide_eq_true (List.all_eq_true.1 hblanks b hb)), fun hstart => ?_⟩
  rcases startsLexeme_iff.1 hstart with hb | hb | ⟨s, hb⟩
  · exact hword (Byte.toNat_lt_of_isWordStart hb) (Byte.isWordByte_of_isWordStart hb)
  · exact hword (Byte.toNat_lt_of_isDigit hb) (by simp [Byte.isWordByte, hb])
  · have hmem := List.mem_of_mem_head? hb
    exact hnone (of_decide_eq_true (List.all_eq_true.1 (hsymbols s s.mem_all) b hmem))

namespace Offence

theorem offset_lt {item after : List UInt8} {fault : Fault} {offset : Nat}
    (h : Offence item after fault offset) : offset < item.length := by
  cases h with
  | illegal => simp
  | long _ _ hlong => omega
  | large hne => exact List.length_pos_iff.2 hne
  | unclosed hopen => exact hopen.offset_lt

/-- An offence is an open comment, or the reading of a lexeme there fails with its fault. -/
theorem unclosed_or_next_eq {item after : List UInt8} {fault : Fault} {offset : Nat}
    (h : Offence item after fault offset) :
    (fault = .unclosedComment ∧ Comment.Unclosed (item ++ after) offset) ∨
      (offset = 0 ∧ Gap.Clear (item ++ after) ∧
        (Reading.next (item ++ after)).outcome = .error fault) := by
  cases h with
  | @illegal b shown _ hblank hstart hshown =>
    rw [startsLexeme_iff, not_or, not_or, Bool.not_eq_true, Bool.not_eq_true] at hstart
    obtain ⟨hword, hdigit, hsymbol⟩ := hstart
    have hslash : b ≠ Byte.slash := by
      rintro rfl
      exact hsymbol ⟨.divide, rfl⟩
    -- The first byte of a symbol is a byte with which a lexeme begins.
    have hnone : Symbol.first? (b :: after) = none := by
      refine Option.eq_none_iff_forall_ne_some.2 fun s hs => hsymbol ⟨s, ?_⟩
      obtain ⟨c, rest, hbytes⟩ := List.exists_cons_of_length_pos s.length_bytes_pos
      have hprefix := Symbol.prefix_of_first?_eq_some hs
      rw [hbytes, List.cons_prefix_cons] at hprefix
      rw [hbytes, ← hprefix.1]
      rfl
    have hchar : Char.ofUInt8 b = shown := Text.ofUInt8_eq_of_toNat_eq hshown
    refine .inr ⟨rfl, Gap.clear_cons hblank fun hb => absurd hb hslash, ?_⟩
    rw [List.singleton_append, Reading.next_cons_of_neither hword hdigit, Reading.symbol, hnone,
      hchar]
  | @long spelling _ hword hrun hlong =>
    refine .inr ⟨rfl, ?_, ?_⟩
    · obtain ⟨b, rest, hbytes, hstart⟩ := hword.exists_cons
      rw [hbytes]
      exact Gap.clear_of_isWordStart hstart _
    · rw [Reading.next_word_append hword hrun, if_pos hlong]
  | @large literal _ hne hrun hlarge =>
    have hascii : ∀ b ∈ Text.utf8 literal, b.toNat < 128 := fun b hb =>
      Byte.toNat_lt_of_isDigit (hrun.all b hb)
    refine .inr ⟨rfl, ?_, ?_⟩
    · obtain ⟨b, rest, hbytes⟩ := List.exists_cons_of_ne_nil hne
      rw [hbytes]
      exact Gap.clear_of_isDigit (hrun.all b (by rw [hbytes]; exact List.mem_cons_self)) _
    · rw [Reading.next_digits_append hne hrun, (Numeral.value?_spec hrun.all).2 hlarge,
        Text.latin1_utf8 hascii]
  | unclosed hopen =>
    rw [List.append_nil]
    exact .inl ⟨rfl, hopen⟩

/-- No offence begins with white space. -/
theorem head_not_mem_whiteSpace {item after : List UInt8} {fault : Fault} {offset : Nat}
    (h : Offence item after fault offset) :
    ∀ b ∈ (item ++ after).head?, b ∉ Gap.whiteSpace := by
  rcases h.unclosed_or_next_eq with ⟨-, hopen⟩ | ⟨-, hclear, -⟩
  · rw [hopen.head?_eq]
    intro b hb
    obtain rfl : Byte.slash = b := by simpa [Comment.opening] using hb
    decide
  · exact hclear.notBlank

private theorem extent_append {gap item after : List UInt8} {fault : Fault} {offset : Nat}
    (h : Offence item after fault offset) (hgap : Gap.Fills gap (item ++ after)) :
    Gap.extent (gap ++ (item ++ after)) = .unclosed (gap.length + offset) ∨
      (Gap.extent (gap ++ (item ++ after)) = .upTo gap.length ∧ offset = 0) := by
  rw [hgap.extent_append]
  rcases h.unclosed_or_next_eq with ⟨-, hopen⟩ | ⟨hzero, hclear, -⟩
  · rw [Gap.extent_of_comment_unclosed hopen]
    exact .inl rfl
  · rw [Gap.extent_of_clear hclear]
    exact .inr ⟨rfl, hzero⟩

/-- However bytes are split into a gap and an offence, the fault is in the same place. -/
theorem place_unique {gap gap' item item' after after' : List UInt8} {fault fault' : Fault}
    {offset offset' : Nat} (h : Offence item after fault offset)
    (h' : Offence item' after' fault' offset') (hgap : Gap.Fills gap (item ++ after))
    (hgap' : Gap.Fills gap' (item' ++ after'))
    (hsame : gap ++ (item ++ after) = gap' ++ (item' ++ after')) :
    gap.length + offset = gap'.length + offset' := by
  have hextent := h.extent_append hgap
  have hextent' := h'.extent_append hgap'
  rw [hsame] at hextent
  rcases hextent with hextent | ⟨hextent, rfl⟩
  · rcases hextent' with hextent' | ⟨hextent', -⟩
    · exact Extent.unclosed.inj (hextent.symm.trans hextent')
    · cases hextent.symm.trans hextent'
  · rcases hextent' with hextent' | ⟨hextent', rfl⟩
    · cases hextent.symm.trans hextent'
    · exact Extent.upTo.inj (hextent.symm.trans hextent')

end Offence

/-! Where no gap begins. -/

def Lexeme.Leads (ahead : List UInt8) : Prop :=
  ∃ l text after, ahead = text ++ after ∧ Spelled l text ∧ l.Stops after

def Offends (ahead : List UInt8) : Prop :=
  ∃ item after fault offset, ahead = item ++ after ∧ Offence item after fault offset

private theorem leads_or_offends_of_isWordStart {b : UInt8} (h : Byte.isWordStart b = true)
    (rest : List UInt8) : Lexeme.Leads (b :: rest) ∨ Offends (b :: rest) := by
  obtain ⟨run, after, rfl, hrun⟩ :=
    MaximalRun.exists_cons (Byte.isWordByte_of_isWordStart h) rest
  have hword : Lexeme.IsWord (b :: run) := ⟨⟨b, rfl, h⟩, hrun.all⟩
  by_cases hlength : (b :: run).length ≤ 32
  · obtain ⟨l, hl, hcontinued⟩ := Lexeme.exists_spelled_of_isWord hword hlength
    refine .inl ⟨l, b :: run, after, rfl, hl, ?_⟩
    rw [Lexeme.Stops, hcontinued]
    exact hrun.stops
  · have hbytes : Text.utf8 (Text.latin1 (b :: run)) = b :: run :=
      Text.utf8_latin1 fun c hc => Byte.toNat_lt_of_isWordByte (hrun.all c hc)
    rw [← hbytes] at hword hrun hlength
    refine .inr ⟨_, after, _, 0, ?_, .long hword hrun (Nat.lt_of_not_le hlength)⟩
    rw [hbytes, List.cons_append]

private theorem leads_or_offends_of_isDigit {b : UInt8} (h : Byte.isDigit b = true)
    (rest : List UInt8) : Lexeme.Leads (b :: rest) ∨ Offends (b :: rest) := by
  obtain ⟨run, after, rfl, hrun⟩ := MaximalRun.exists_cons h rest
  have hne := List.cons_ne_nil b run
  by_cases hfits : Numeral.decimal (b :: run) ≤ 2147483647
  · obtain ⟨l, hl, hcontinued⟩ := Lexeme.exists_spelled_of_digits hne hrun.all hfits
    refine .inl ⟨l, b :: run, after, rfl, hl, ?_⟩
    rw [Lexeme.Stops, hcontinued]
    exact hrun.stops
  · have hbytes : Text.utf8 (Text.latin1 (b :: run)) = b :: run :=
      Text.utf8_latin1 fun c hc => Byte.toNat_lt_of_isDigit (hrun.all c hc)
    rw [← hbytes] at hrun hfits hne
    refine .inr ⟨_, after, _, 0, ?_, .large hne hrun (Nat.lt_of_not_le hfits)⟩
    rw [hbytes, List.cons_append]

private theorem leads_of_first?_eq_some {ahead : List UInt8} {s : Symbol}
    (hclear : Gap.Clear ahead) (h : Symbol.first? ahead = some s) : Lexeme.Leads ahead := by
  obtain ⟨after, rfl⟩ := Symbol.prefix_of_first?_eq_some h
  refine ⟨_, s.bytes, after, rfl, Lexeme.spelled_ofSymbol s, ?_⟩
  intro c hc
  obtain ⟨behind, rfl⟩ := List.head?_eq_some_iff.1 hc
  by_cases hdivide : s = .divide
  · subst hdivide
    refine Bool.or_eq_false_iff.2 ⟨beq_false_of_ne ?_, beq_false_of_ne ?_⟩
    · rintro rfl
      exact hclear.notLine ⟨behind, rfl⟩
    · rintro rfl
      exact hclear.notBlock ⟨behind, rfl⟩
  · exact Symbol.continuedBy_of_first?_append hdivide h

private theorem not_startsLexeme_of_first?_eq_none {b : UInt8} {rest : List UInt8}
    (hstart : ¬ Byte.isWordStart b = true) (hdigit : ¬ Byte.isDigit b = true)
    (h : Symbol.first? (b :: rest) = none) : ¬ StartsLexeme b := by
  rw [startsLexeme_iff]
  rintro (hb | hb | ⟨s, hs⟩)
  · exact hstart hb
  · exact hdigit hb
  · obtain ⟨t, ht⟩ := s.exists_bytes_eq_take_one
    obtain ⟨more, hbytes⟩ := List.head?_eq_some_iff.1 hs
    rw [hbytes] at ht
    exact Symbol.not_prefix_of_first?_eq_none h t ⟨rest, by rw [ht]; rfl⟩

/-- Where no gap begins stands the end, a lexeme that what follows does not continue, or an
offence. -/
theorem leads_or_offends {ahead : List UInt8} (hclear : Gap.Clear ahead) :
    ahead = [] ∨ Lexeme.Leads ahead ∨ Offends ahead := by
  cases ahead with
  | nil => exact .inl rfl
  | cons b rest =>
    right
    by_cases hstart : Byte.isWordStart b = true
    · exact leads_or_offends_of_isWordStart hstart rest
    by_cases hdigit : Byte.isDigit b = true
    · exact leads_or_offends_of_isDigit hdigit rest
    cases hfirst : Symbol.first? (b :: rest) with
    | some s => exact .inl (leads_of_first?_eq_some hclear hfirst)
    | none =>
      have hnothing := not_startsLexeme_of_first?_eq_none hstart hdigit hfirst
      have hillegal : Offence [b] rest (.illegalCharacter (Char.ofUInt8 b) b) 0 :=
        .illegal (hclear.notBlank b rfl) hnothing (UInt8.toNat_toUInt32 b)
      exact .inr ⟨[b], rest, _, 0, rfl, hillegal⟩

end Lexis

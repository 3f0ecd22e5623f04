import Lexis.Proofs.LinePlaces
import Lexis.Proofs.LossyDecoding
import Lexis.Proofs.Rejection

/-! Where in its line a fault is.
A fault is placed at a byte in the text of a line, never in an ending. The decoding can be cut
there: an opening mark of a comment is below 0x80, and so is whatever ends directly before any other
offence. -/
namespace Lexis

private theorem mem_getLast?_cases (front : List UInt8) {back : List UInt8} {b : UInt8}
    (h : b ∈ (front ++ back).getLast?) :
    b ∈ back.getLast? ∨ (back = [] ∧ b ∈ front.getLast?) := by
  rcases List.eq_nil_or_concat' back with rfl | ⟨init, c, rfl⟩
  · rw [List.append_nil] at h
    exact .inr ⟨rfl, h⟩
  · left
    rwa [← List.append_assoc, List.getLast?_concat, ← List.getLast?_concat] at h

theorem Lexeme.Spelled.toNat_lt {l : Lexeme} {text : List UInt8} (h : l.Spelled text) :
    ∀ b ∈ text, b.toNat < 0x80 := by
  rcases h.kinds with ⟨_, _, -, -, hword, -⟩ | ⟨_, -, -, hdigits, -⟩ | ⟨s, -, rfl⟩
  · exact fun b hb => Byte.toNat_lt_of_isWordByte (hword.2 b hb)
  · exact fun b hb => Byte.toNat_lt_of_isDigit (hdigits b hb)
  · have hall : ∀ s ∈ Symbol.all, s.bytes.all (fun b => decide (b.toNat < 0x80)) = true := by
      decide
    intro b hb
    exact of_decide_eq_true (List.all_eq_true.1 (hall s s.mem_all) b hb)

namespace Gap

private theorem getLast?_block {comment : List UInt8} (h : Comment.Block comment) :
    ∀ b ∈ comment.getLast?, b.toNat < 0x80 := by
  obtain ⟨text, -, rfl⟩ := h
  intro b hb
  rcases mem_getLast?_cases _ hb with hb | ⟨hnil, -⟩
  · obtain rfl := Option.some.inj hb
    decide
  · cases hnil

private theorem not_line_of_not_mem_whiteSpace {comment after : List UInt8} {b : UInt8}
    (hb : b ∈ after.head?) (hblank : b ∉ whiteSpace) : ¬ Comment.Line comment after := by
  rintro ⟨text, htext, -⟩
  have hstop : Text.isLineBreak b = true := Bool.not_eq_false' _ ▸ htext.stops b hb
  rw [isLineBreak_of_not_mem_whiteSpace hblank] at hstop
  cases hstop

theorem toNat_lt_of_mem_whiteSpace {b : UInt8} (h : b ∈ whiteSpace) : b.toNat < 0x80 := by
  have hall : whiteSpace.all (fun b => decide (b.toNat < 0x80)) = true := by decide
  exact of_decide_eq_true (List.all_eq_true.1 hall b h)

/-- Directly before a byte that is no white space, a gap ends in a byte below 0x80. A line comment,
which could end in any byte, does not end there. -/
theorem Fills.getLast?_lt {gap after : List UInt8} (h : Fills gap after) {b : UInt8}
    (hb : b ∈ after.head?) (hblank : b ∉ whiteSpace) : ∀ c ∈ gap.getLast?, c.toNat < 0x80 := by
  induction h with
  | nil => exact nofun
  | @blank c gap _ hc _ ih =>
    intro d hd
    rcases mem_getLast?_cases [c] hd with hd | ⟨-, hd⟩
    · exact ih hb d hd
    · obtain rfl := Option.some.inj hd
      exact toNat_lt_of_mem_whiteSpace hc
  | line hline _ ih =>
    intro d hd
    rcases mem_getLast?_cases _ hd with hd | ⟨rfl, -⟩
    · exact ih hb d hd
    · exact absurd hline (not_line_of_not_mem_whiteSpace hb hblank)
  | block hblock _ ih =>
    intro d hd
    rcases mem_getLast?_cases _ hd with hd | ⟨-, hd⟩
    · exact ih hb d hd
    · exact getLast?_block hblock d hd

end Gap

/-- The same of a layout, whose lexemes have no other bytes. -/
theorem Layout.Fits.getLast?_lt {layout : Layout} {after : List UInt8} (h : layout.Fits after)
    {b : UInt8} (hb : b ∈ after.head?) (hblank : b ∉ Gap.whiteSpace) :
    ∀ c ∈ layout.bytes.getLast?, c.toNat < 0x80 := by
  induction h with
  | last hgap => exact hgap.getLast?_lt hb hblank
  | cons _ hspelled _ _ ih =>
    intro c hc
    rcases mem_getLast?_cases _ hc with hc | ⟨hnil, -⟩
    · rcases mem_getLast?_cases _ hc with hc | ⟨-, hc⟩
      · exact ih hb c hc
      · exact hspelled.toNat_lt c (List.mem_of_getLast? hc)
    · exact absurd (List.append_eq_nil_iff.1 hnil).1 hspelled.ne_nil

/-- At the offset of an open comment stands its opening mark. -/
theorem Comment.Unclosed.opening_prefix_drop {bytes : List UInt8} {offset : Nat}
    (h : Unclosed bytes offset) : opening <+: bytes.drop offset := by
  induction h with
  | innermost => exact List.prefix_append ..
  | @outer text rest offset _ _ ih =>
    have hlength : 2 + text.length = (opening ++ text).length := by
      rw [List.length_append]
      rfl
    rwa [hlength, List.drop_length_add_append]

/-- A fault is placed at an opening mark, or at the front of an offence that is no white space. -/
theorem Offence.opening_or_front {item after : List UInt8} {fault : Fault} {offset : Nat}
    (h : Offence item after fault offset) :
    Comment.opening <+: (item ++ after).drop offset ∨
      (offset = 0 ∧ ∃ b ∈ (item ++ after).head?, b ∉ Gap.whiteSpace) := by
  rcases h.unclosed_or_next_eq with ⟨-, hopen⟩ | ⟨rfl, hclear, -⟩
  · exact .inl hopen.opening_prefix_drop
  · right
    obtain ⟨b, rest, hitem⟩ := List.exists_cons_of_length_pos h.offset_lt
    refine ⟨rfl, b, ?_, hclear.notBlank b ?_⟩ <;> rw [hitem] <;> rfl

namespace Rejected
variable {bytes item after : List UInt8} {layout : Layout} {fault : Fault} {offset : Nat}

private theorem drop_eq (h : Rejected bytes layout item after fault offset) :
    bytes.drop (layout.bytes.length + offset) = (item ++ after).drop offset := by
  rw [h.bytes_eq, List.drop_length_add_append]

/-- The fault is placed at a byte that ends no line. -/
theorem exists_byte (h : Rejected bytes layout item after fault offset) :
    ∃ b, bytes[layout.bytes.length + offset]? = some b ∧ Text.isLineBreak b = false := by
  rw [← List.head?_drop, h.drop_eq]
  rcases h.offence.opening_or_front with ⟨rest, hrest⟩ | ⟨rfl, b, hb, hblank⟩
  · rw [← hrest]
    exact ⟨Byte.slash, rfl, by decide⟩
  · exact ⟨b, hb, Gap.isLineBreak_of_not_mem_whiteSpace hblank⟩

/-- The decoding can be cut at the fault. -/
theorem seam (h : Rejected bytes layout item after fault offset) :
    Text.Utf8.Seam (bytes.take (layout.bytes.length + offset))
      (bytes.drop (layout.bytes.length + offset)) := by
  rcases h.offence.opening_or_front with ⟨rest, hrest⟩ | ⟨rfl, b, hb, hblank⟩
  · right
    rw [h.drop_eq, ← hrest]
    intro b hb
    obtain rfl := Option.some.inj hb
    decide
  · left
    rw [h.bytes_eq, Nat.add_zero, List.take_left]
    exact h.fits.getLast?_lt hb hblank

end Rejected

open Text

/-- The byte at index `k` stands in the text of the line `l`, at an offset in the line. -/
structure WithinLine (bytes : List UInt8) (k : Nat) (front : List (Line UInt8)) (l : Line UInt8)
    (back : List (Line UInt8)) (offset : Nat) : Prop where
  split : Split (front ++ l :: back)
  bytes_eq : bytes = joined (front ++ l :: back)
  index_eq : k = (joined front).length + offset
  offset_lt : offset < l.text.length

/-- A byte that ends no line stands in the text of one. -/
theorem exists_withinLine {bytes : List UInt8} {k : Nat} {b : UInt8} (hb : bytes[k]? = some b)
    (hbreak : isLineBreak b = false) :
    ∃ front l back offset, WithinLine bytes k front l back offset := by
  obtain ⟨hsplit, hjoined⟩ := split_lines bytes
  have hk : k < (joined (lines bytes)).length := by
    rw [hjoined]
    exact (List.getElem?_eq_some_iff.1 hb).1
  obtain ⟨front, l, back, offset, hlines, hoffset, hindex⟩ := exists_line_of_lt_length hk
  rw [hlines] at hsplit hjoined
  refine ⟨front, l, back, offset, hsplit, hjoined.symm, hindex, Nat.lt_of_not_le fun hle => ?_⟩
  -- Otherwise the byte is one of the ending.
  have hmem : b ∈ l.ending := by
    have hwhole : l.whole[offset]? = some b := by
      rw [← hb, ← hjoined, joined_append, hindex,
        List.getElem?_append_right (Nat.le_add_right ..), Nat.add_sub_cancel_left]
      exact (List.getElem?_append_left hoffset).symm
    rw [Line.whole, List.getElem?_append_right hle] at hwhole
    exact List.mem_of_getElem? hwhole
  obtain ⟨-, -, hending | ⟨hnone, -⟩⟩ := hsplit.of_append.of_cons
  · rw [hending.isLineBreak b hmem] at hbreak
    cases hbreak
  · rw [hnone] at hmem
    cases hmem

namespace WithinLine
variable {bytes : List UInt8} {k offset : Nat} {front back : List (Line UInt8)} {l : Line UInt8}

theorem take_eq (h : WithinLine bytes k front l back offset) :
    bytes.take k = joined front ++ l.text.take offset := by
  rw [h.bytes_eq, h.index_eq, joined_append, List.take_length_add_append, joined_cons,
    List.take_append_of_le_length (Nat.le_of_lt h.offset_lt)]

theorem drop_eq (h : WithinLine bytes k front l back offset) :
    bytes.drop k = l.text.drop offset ++ (l.ending ++ joined back) := by
  rw [h.bytes_eq, h.index_eq, joined_append, List.drop_length_add_append, joined_cons,
    List.drop_append_of_le_length (Nat.le_of_lt h.offset_lt)]

theorem index_lt (h : WithinLine bytes k front l back offset) : k < bytes.length := by
  have hlt := h.offset_lt
  rw [h.bytes_eq, h.index_eq, joined_append, joined_cons, List.length_append, List.length_append]
  omega

/-- The place of the byte gives the number of its line and its offset. -/
theorem ofIndex_eq (h : WithinLine bytes k front l back offset)
    (hn : bytes.length ≤ 2 ^ 32 - 2) :
    (Position.ofIndex bytes k).line.toNat = front.length + 1 ∧
      (Position.ofIndex bytes k).column.toNat = offset + 1 := by
  have hoffset : offset < l.whole.length := by
    rw [Line.whole, List.length_append]
    exact Nat.lt_add_right _ h.offset_lt
  rw [h.bytes_eq] at hn ⊢
  rw [h.index_eq]
  exact Position.toNat_ofIndex_joined h.split hoffset hn

/-- The line begins where the lines before it end. -/
theorem lineStart_eq (h : WithinLine bytes k front l back offset)
    (hn : bytes.length ≤ 2 ^ 32 - 2) :
    Position.lineStart bytes k = (joined front).length := by
  have hlt := h.index_lt
  have hne : bytes ≠ [] := List.ne_nil_of_length_pos (Nat.zero_lt_of_lt hlt)
  have hcolumn := (h.ofIndex_eq hn).2
  rw [(Position.toNat_ofIndex hne (by omega)).2] at hcolumn
  have hle := Position.lineStart_le bytes k
  have hindex := h.index_eq
  omega

/-- The bytes of the line before the byte. -/
theorem drop_take_eq (h : WithinLine bytes k front l back offset)
    (hn : bytes.length ≤ 2 ^ 32 - 2) :
    (bytes.take k).drop (Position.lineStart bytes k) = l.text.take offset := by
  rw [h.lineStart_eq hn, h.take_eq, List.drop_left]

/-- The line is found in the decoded text by the number in the place of the byte. -/
theorem lineOf?_eq (h : WithinLine bytes k front l back offset)
    (hn : bytes.length ≤ 2 ^ 32 - 2) :
    lineOf? (ofUtf8Lossy bytes) (Position.ofIndex bytes k).line =
      some (ofUtf8Lossy l.text) := by
  rw [← lineOf?_of_toNat_eq h.split (h.ofIndex_eq hn).1, ← h.bytes_eq]

/-- Where the decoding can be cut before the byte, the decoded line is what stands before the byte,
and then the character that begins with it. -/
theorem decode_text_eq (h : WithinLine bytes k front l back offset)
    (hseam : Utf8.Seam (bytes.take k) (bytes.drop k)) :
    ∃ c behind, Utf8.decode l.text = Utf8.decode (l.text.take offset) ++ c :: behind ∧
      (Utf8.decode (bytes.drop k)).head? = some c := by
  have hne : l.text.drop offset ≠ [] := by
    simpa using h.offset_lt
  have hdecoded := Utf8.decode_ne_nil hne
  obtain ⟨c, behind, hbehind⟩ := List.exists_cons_of_ne_nil hdecoded
  refine ⟨c, behind, ?_, ?_⟩
  · have hcut : Utf8.Seam (l.text.take offset) (l.text.drop offset) := by
      rw [h.take_eq, h.drop_eq, Utf8.Seam, List.head?_append_of_ne_nil _ hne] at hseam
      refine hseam.imp_left fun hlast b hb => hlast b ?_
      rw [List.getLast?_append, Option.mem_def.1 hb]
      rfl
    rw [← hbehind, ← Utf8.decode_append hcut, List.take_append_drop]
  · have hending : Utf8.Seam (l.text.drop offset) (l.ending ++ joined back) := by
      obtain ⟨-, -, hending | ⟨hnone, hnil⟩⟩ := h.split.of_append.of_cons
      · exact hending.seam _
      · rw [hnone, hnil]
        refine .inr fun b hb => ?_
        cases hb
    rw [h.drop_eq, Utf8.decode_append hending, List.head?_append_of_ne_nil _ hdecoded, hbehind]
    rfl

end WithinLine

namespace Scan.Run
variable {bytes : List UInt8} {name : Option String} {tokens : List Token} {failure : Failure}

/-- The failure of a scan is the offence for which its source is rejected. -/
theorem exists_rejected (h : (Scan.ofBytes bytes name).Run tokens (.error failure)) :
    ∃ layout item after offset, Rejected bytes layout item after failure.fault offset ∧
      failure.position = some (.ofIndex bytes (layout.bytes.length + offset)) ∧
      failure.source = name.getD Scan.defaultSource := by
  rcases h.fits_or_rejected with
    ⟨_, -, -, -, houtcome⟩ | ⟨layout, item, after, fault, offset, hrejected, -, houtcome⟩
  · cases houtcome
  · cases houtcome
    exact ⟨layout, item, after, offset, hrejected, rfl, rfl⟩

/-- The failure of a scan is placed at a byte in the text of a line, where the decoding can be
cut. -/
theorem exists_withinLine (h : (Scan.ofBytes bytes name).Run tokens (.error failure)) :
    ∃ k front l back offset, WithinLine bytes k front l back offset ∧
      Utf8.Seam (bytes.take k) (bytes.drop k) ∧ failure.position = some (.ofIndex bytes k) := by
  obtain ⟨layout, item, after, offset, hrejected, hposition, -⟩ := h.exists_rejected
  obtain ⟨b, hb, hbreak⟩ := hrejected.exists_byte
  obtain ⟨front, l, back, place, hwithin⟩ := Lexis.exists_withinLine hb hbreak
  exact ⟨_, front, l, back, place, hwithin, hrejected.seam, hposition⟩

end Scan.Run

end Lexis

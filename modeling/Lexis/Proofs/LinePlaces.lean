import Lexis.Proofs.LineBreaks
import Lexis.Proofs.LineSplitting

/-! Places in the lines of a text.
A cursor that moves along the lines counts them, and within a line it counts bytes. So the line that
is looked up by the number in a place is the line in which the place is. -/
namespace Lexis

namespace Position

/-- The place reached from `p` across the bytes `front`, which `after` follows. -/
def across (p : Position) : List UInt8 → List UInt8 → Position
  | [], _ => p
  | b :: front, after => (p.past b (front ++ after).head?).across front after

theorem across_append (p : Position) (front more after : List UInt8) :
    p.across (front ++ more) after = (p.across front (more ++ after)).across more after := by
  induction front generalizing p with
  | nil => rfl
  | cons b front ih => rw [List.cons_append, across, ih, across, List.append_assoc]

theorem ofIndex_add_length {bytes front after : List UInt8} {i : Nat}
    (h : bytes.drop i = front ++ after) :
    ofIndex bytes (i + front.length) = (ofIndex bytes i).across front after := by
  induction front generalizing i with
  | nil => rfl
  | cons b front ih =>
    have hb : bytes[i]? = some b := by
      rw [← List.head?_drop, h]
      rfl
    have hbehind : bytes.drop (i + 1) = front ++ after := by
      rw [← List.tail_drop, h]
      rfl
    rw [across, ← hbehind, List.head?_drop, ← ofIndex_succ hb, ← ih hbehind, List.length_cons]
    congr 1
    omega

theorem ofIndex_length_append {front after : List UInt8} (h : front ++ after ≠ []) :
    ofIndex (front ++ after) front.length = first.across front after := by
  have hdrop : (front ++ after).drop 0 = front ++ after := List.drop_zero
  rw [← ofIndex_zero h, ← ofIndex_add_length hdrop, Nat.zero_add]

theorem endsLine_of_not_isLineBreak {b : UInt8} (h : Text.isLineBreak b = false)
    (following : Option UInt8) : endsLine b following = false := by
  have hlf : b ≠ Byte.lineFeed := (Text.isLineBreak_eq_false_iff.1 h).1
  have hcr : b ≠ Byte.carriageReturn := (Text.isLineBreak_eq_false_iff.1 h).2
  rw [endsLine, beq_false_of_ne hlf, beq_false_of_ne hcr]
  rfl

theorem past_of_not_isLineBreak {b : UInt8} (h : Text.isLineBreak b = false) (p : Position)
    (following : Option UInt8) : p.past b following = ⟨p.line, p.column + 1⟩ :=
  past_of_not_endsLine (endsLine_of_not_isLineBreak h following)

theorem across_of_unbroken {front : List UInt8} (h : Text.Unbroken front) (p : Position)
    (after : List UInt8) :
    p.across front after = ⟨p.line, p.column + .ofNat front.length⟩ := by
  induction front generalizing p with
  | nil => simp [across]
  | cons b front ih =>
    obtain ⟨hb, hfront⟩ := List.forall_mem_cons.1 h
    rw [across, past_of_not_isLineBreak hb, ih hfront, List.length_cons, UInt32.ofNat_add]
    rw [UInt32.add_assoc, UInt32.add_comm 1]
    rfl

/-- Every ending leads to the first column of the next line. -/
theorem across_of_isEnding {ending after : List UInt8} (h : Text.IsEnding ending after)
    (p : Position) : p.across ending after = ⟨p.line + 1, 1⟩ := by
  cases h with
  | lineFeed => rfl
  | carriageReturn hafter =>
    have hends : endsLine Byte.carriageReturn after.head? = true :=
      Bool.or_eq_true _ _ ▸ .inr (bne_iff_ne.2 hafter)
    exact past_of_endsLine hends
  | both => rfl

/-- Lines that another line follows lead to its first column. -/
theorem across_joined {front back : List (Text.Line UInt8)} {l : Text.Line UInt8}
    (h : Text.Split (front ++ l :: back)) (p : Position) :
    (⟨p.line, 1⟩ : Position).across (Text.joined front) (Text.joined (l :: back)) =
      ⟨p.line + .ofNat front.length, 1⟩ := by
  induction front generalizing p with
  | nil => simp [across]
  | cons m front ih =>
    rw [List.cons_append] at h
    obtain ⟨htext, hrest, hending | ⟨-, hnil⟩⟩ := h.of_cons
    · rw [Text.joined_append] at hending
      rw [Text.joined_cons, across_append, across_of_unbroken htext, across_append,
        across_of_isEnding hending, ih hrest ⟨p.line + 1, 1⟩, List.length_cons, UInt32.ofNat_add,
        UInt32.add_assoc, UInt32.add_comm 1]
      rfl
    · exact absurd hnil (List.append_ne_nil_of_right_ne_nil front (List.cons_ne_nil l back))

/-- Within a line the column counts the bytes, also those of an ending of two. -/
theorem across_take_whole {l : Text.Line UInt8} {after : List UInt8} (htext : Text.Unbroken l.text)
    (hending : Text.IsEnding l.ending after ∨ l.ending = []) {offset : Nat}
    (hoffset : offset < l.whole.length) (p : Position) :
    p.across (l.whole.take offset) (l.whole.drop offset ++ after) =
      ⟨p.line, p.column + .ofNat offset⟩ := by
  rcases Nat.lt_or_ge l.text.length offset with hlt | hle
  · -- Only an ending of two has a byte behind its first one.
    rw [Text.Line.whole, List.length_append] at hoffset
    obtain ⟨hpair, rfl⟩ : l.ending = [Byte.carriageReturn, Byte.lineFeed] ∧
        offset = l.text.length + 1 := by
      generalize l.ending = ending at hending hoffset ⊢
      rcases hending with hending | rfl
      · cases hending with
        | lineFeed => simp only [List.length_singleton] at hoffset; omega
        | carriageReturn => simp only [List.length_singleton] at hoffset; omega
        | both =>
          simp only [List.length_cons, List.length_nil] at hoffset
          exact ⟨rfl, by omega⟩
      · simp only [List.length_nil] at hoffset
        omega
    rw [Text.Line.whole, List.take_length_add_append, List.drop_length_add_append, hpair,
      across_append, across_of_unbroken htext, UInt32.ofNat_add, ← UInt32.add_assoc]
    rfl
  · have htake : Text.Unbroken (l.text.take offset) := fun b hb => htext b (List.mem_of_mem_take hb)
    rw [Text.Line.whole, List.take_append_of_le_length hle, across_of_unbroken htake,
      List.length_take_of_le hle]

/-- The place of a byte is the number of its line and its place in the line. -/
theorem ofIndex_joined {front back : List (Text.Line UInt8)} {l : Text.Line UInt8} {offset : Nat}
    (h : Text.Split (front ++ l :: back)) (hoffset : offset < l.whole.length) :
    ofIndex (Text.joined (front ++ l :: back)) ((Text.joined front).length + offset) =
      ⟨.ofNat (front.length + 1), .ofNat (offset + 1)⟩ := by
  obtain ⟨htext, -, hending⟩ := h.of_append.of_cons
  have hwhole : Text.joined (l :: back) =
      l.whole.take offset ++ (l.whole.drop offset ++ Text.joined back) := by
    rw [← List.append_assoc, List.take_append_drop]
    rfl
  have hne : Text.joined front ++ Text.joined (l :: back) ≠ [] := by
    rw [hwhole]
    have hdrop : l.whole.drop offset ≠ [] := by simpa using hoffset
    simp [hdrop]
  have hline : (Text.joined front ++ Text.joined (l :: back)).drop (Text.joined front).length =
      l.whole.take offset ++ (l.whole.drop offset ++ Text.joined back) := by
    rw [List.drop_left, hwhole]
  have hindex := ofIndex_add_length hline
  rw [List.length_take_of_le (Nat.le_of_lt hoffset), ofIndex_length_append hne] at hindex
  rw [Text.joined_append, hindex, first, across_joined h ⟨1, 1⟩,
    across_take_whole htext (hending.imp_right And.left) hoffset, Nat.add_comm front.length,
    Nat.add_comm offset, UInt32.ofNat_add, UInt32.ofNat_add]
  rfl

theorem toNat_add_one {n : UInt32} (h : n.toNat + 1 < 2 ^ 32) : (n + 1).toNat = n.toNat + 1 := by
  rw [UInt32.toNat_add]
  exact Nat.mod_eq_of_lt h

/-- Below the limit of 32 bits both numbers are exact. -/
theorem toNat_ofIndex_joined {front back : List (Text.Line UInt8)} {l : Text.Line UInt8}
    {offset : Nat} (h : Text.Split (front ++ l :: back)) (hoffset : offset < l.whole.length)
    (hn : (Text.joined (front ++ l :: back)).length ≤ 2 ^ 32 - 2) :
    let p := ofIndex (Text.joined (front ++ l :: back)) ((Text.joined front).length + offset)
    p.line.toNat = front.length + 1 ∧ p.column.toNat = offset + 1 := by
  intro p
  have hp : p = ⟨.ofNat (front.length + 1), .ofNat (offset + 1)⟩ := ofIndex_joined h hoffset
  have hlines := h.length_le
  have hjoined : (Text.joined (front ++ l :: back)).length =
      (Text.joined front).length + (l.whole.length + (Text.joined back).length) := by
    rw [Text.joined_append, List.length_append, Text.joined, Text.joined, List.flatMap_cons,
      List.length_append]
    rfl
  rw [List.length_append, List.length_cons] at hlines
  rw [hp]
  constructor
  · exact UInt32.toNat_ofNat_of_lt' (by simp only [UInt32.size]; omega)
  · exact UInt32.toNat_ofNat_of_lt' (by simp only [UInt32.size]; omega)

end Position

open Text

structure StandsIn (content : String) (k : Nat) (front : List (Line Char)) (l : Line Char)
    (back : List (Line Char)) (offset : Nat) : Prop where
  split : Split (front ++ l :: back)
  content_eq : content.toList = joined (front ++ l :: back)
  index_eq : k = (encode (joined front)).length + offset
  offset_lt : offset < l.encode.whole.length

theorem exists_standsIn {content : String} {k : Nat} (h : k < (utf8 content).length) :
    ∃ front l back offset, StandsIn content k front l back offset := by
  obtain ⟨hsplit, hjoined⟩ := split_lines content.toList
  have hk : k < (joined ((lines content.toList).map Line.encode)).length := by
    rwa [joined_map_encode, hjoined]
  obtain ⟨front, l, back, offset, hlines, hoffset, hindex⟩ := exists_line_of_lt_length hk
  obtain ⟨front, behind, hsame, rfl, hbehind⟩ := List.map_eq_append_iff.1 hlines
  obtain ⟨l, back, rfl, rfl, -⟩ := List.map_eq_cons_iff.1 hbehind
  rw [hsame] at hsplit hjoined
  rw [joined_map_encode] at hindex
  exact ⟨front, l, back, offset, hsplit, hjoined.symm, hindex, hoffset⟩

namespace StandsIn
variable {content : String} {k offset : Nat} {front back : List (Line Char)} {l : Line Char}

/-- The text and the ending of the line, with what follows them. -/
theorem line (h : StandsIn content k front l back offset) :
    Unbroken l.encode.text ∧
      (IsEnding l.encode.ending (encode (joined back)) ∨ l.encode.ending = []) := by
  have hsplit := h.split.encode
  rw [List.map_append, List.map_cons] at hsplit
  obtain ⟨htext, -, hending⟩ := hsplit.of_append.of_cons
  rw [joined_map_encode] at hending
  exact ⟨htext, hending.imp_right And.left⟩

theorem utf8_eq (h : StandsIn content k front l back offset) :
    utf8 content = encode (joined front) ++ (l.encode.whole ++ encode (joined back)) := by
  rw [utf8_eq_encode, h.content_eq, joined_append, encode_append, joined_cons, encode_append,
    encode_append, Line.whole, List.append_assoc]
  rfl

theorem getElem?_eq (h : StandsIn content k front l back offset) :
    (utf8 content)[k]? = l.encode.whole[offset]? := by
  rw [h.utf8_eq, h.index_eq, List.getElem?_append_right (Nat.le_add_right ..),
    Nat.add_sub_cancel_left, List.getElem?_append_left h.offset_lt]

/-- The place of the byte gives the number of its line and its offset. -/
theorem ofIndex_eq (h : StandsIn content k front l back offset)
    (hn : (utf8 content).length ≤ 2 ^ 32 - 2) :
    (Position.ofIndex (utf8 content) k).line.toNat = front.length + 1 ∧
      (Position.ofIndex (utf8 content) k).column.toNat = offset + 1 := by
  have hsplit := h.split.encode
  rw [List.map_append, List.map_cons] at hsplit
  have hjoined : joined (front.map Line.encode ++ l.encode :: back.map Line.encode) =
      utf8 content := by
    rw [← List.map_cons, ← List.map_append, joined_map_encode, ← h.content_eq, utf8_eq_encode]
  have hplace := Position.toNat_ofIndex_joined hsplit h.offset_lt (by rwa [hjoined])
  rwa [hjoined, joined_map_encode, ← h.index_eq, List.length_map] at hplace

/-- The line is found by the number in the place of the byte. -/
theorem lineOf?_eq (h : StandsIn content k front l back offset)
    (hn : (utf8 content).length ≤ 2 ^ 32 - 2) :
    lineOf? content (Position.ofIndex (utf8 content) k).line = some (String.ofList l.text) := by
  have hnumber := (h.ofIndex_eq hn).1
  have hpos : (Position.ofIndex (utf8 content) k).line ≠ 0 := by
    intro hzero
    rw [hzero] at hnumber
    cases hnumber
  rw [lineOf?, h.content_eq, h.split.line?_joined, if_neg hpos, hnumber, Nat.add_sub_cancel,
    List.getElem?_append_right (Nat.le_refl _), Nat.sub_self]
  rfl

/-- A byte is in the text of its line, or first in its ending, or the line feed of a pair. -/
theorem byte_cases (h : StandsIn content k front l back offset) {b : UInt8}
    (hb : (utf8 content)[k]? = some b) :
    (isLineBreak b = false ∧ l.encode.text[offset]? = some b) ∨
      (isLineBreak b = true ∧ l.encode.text.length = offset) ∨
      (b = Byte.lineFeed ∧ 0 < k ∧ (utf8 content)[k - 1]? = some Byte.carriageReturn) := by
  obtain ⟨htext, hending⟩ := h.line
  rw [h.getElem?_eq, Line.whole] at hb
  rcases Nat.lt_or_ge offset l.encode.text.length with hlt | hge
  · rw [List.getElem?_append_left hlt] at hb
    exact .inl ⟨htext b (List.mem_of_getElem? hb), hb⟩
  · obtain ⟨i, rfl⟩ := Nat.exists_eq_add_of_le hge
    rw [List.getElem?_append_right hge, Nat.add_sub_cancel_left] at hb
    right
    rcases hending with hending | hnone
    · cases i with
      | zero =>
        refine .inl ⟨?_, rfl⟩
        generalize l.encode.ending = ending at hending hb
        cases hending <;> cases hb <;> rfl
      | succ i =>
        -- A second byte of an ending is the line feed of a pair.
        have hpair : l.encode.ending = [Byte.carriageReturn, Byte.lineFeed] ∧ i = 0 ∧
            b = Byte.lineFeed := by
          generalize l.encode.ending = ending at hending hb ⊢
          cases hending with
          | lineFeed => cases hb
          | carriageReturn => cases hb
          | both =>
            cases i with
            | zero => exact ⟨rfl, rfl, (Option.some.inj hb).symm⟩
            | succ i => cases hb
        obtain ⟨hpair, rfl, rfl⟩ := hpair
        have hindex := h.index_eq
        have hbefore : k - 1 = (encode (joined front)).length + l.encode.text.length := by omega
        refine .inr ⟨rfl, by omega, ?_⟩
        rw [h.utf8_eq, hbefore, List.getElem?_append_right (Nat.le_add_right ..),
          Nat.add_sub_cancel_left, Line.whole, hpair, List.append_assoc,
          List.getElem?_append_right (Nat.le_refl _), Nat.sub_self]
        rfl
    · rw [hnone] at hb
      cases hb

end StandsIn

private theorem lineOf?_second {content : String} {j : Nat}
    (hn : (utf8 content).length ≤ 2 ^ 32 - 2)
    (hcr : (utf8 content)[j]? = some Byte.carriageReturn)
    (hlf : (utf8 content)[j + 1]? = some Byte.lineFeed) :
    ∃ text, lineOf? content (Position.ofIndex (utf8 content) (j + 1)).line = some text ∧
      (utf8 text).length + 2 = (Position.ofIndex (utf8 content) (j + 1)).column.toNat := by
  have hj : j < (utf8 content).length := (List.getElem?_eq_some_iff.1 hcr).1
  obtain ⟨front, l, back, offset, hstands⟩ := exists_standsIn hj
  obtain ⟨-, hcolumn⟩ := hstands.ofIndex_eq hn
  have hlength : l.encode.text.length = offset := by
    rcases hstands.byte_cases hcr with ⟨hbreak, -⟩ | ⟨-, hlength⟩ | ⟨hne, -⟩
    · cases hbreak
    · exact hlength
    · cases hne
  have hpast : Position.ofIndex (utf8 content) (j + 1) =
      ⟨(Position.ofIndex (utf8 content) j).line,
        (Position.ofIndex (utf8 content) j).column + 1⟩ := by
    rw [Position.ofIndex_succ hcr, hlf]
    exact Position.past_of_not_endsLine rfl
  have hindex := hstands.index_eq
  rw [hpast]
  refine ⟨String.ofList l.text, hstands.lineOf?_eq hn, ?_⟩
  rw [utf8_ofList, Position.toNat_add_one (by omega), hcolumn, ← hlength]
  rfl

/-- The place of a byte names the line in which the byte is, and says where. A byte in the text of
the line has its column in the text, an ending comes in the column behind the text, and the second
byte of an ending one column further. -/
theorem lineOf?_position {content : String} {k : Nat} {b : UInt8}
    (hn : (utf8 content).length ≤ 2 ^ 32 - 2) (hb : (utf8 content)[k]? = some b) :
    let r := (Reader.unread (utf8 content)).advanceBy (k + 1)
    let line := r.position.line
    let column := r.position.column.toNat
    let second := b = Byte.lineFeed ∧ 0 < k ∧
      (utf8 content)[k - 1]? = some Byte.carriageReturn
    r.current? = some b ∧ ∃ text, lineOf? content line = some text ∧
      (b ≠ Byte.lineFeed ∧ b ≠ Byte.carriageReturn →
        0 < column ∧ (utf8 text)[column - 1]? = some b) ∧
      (b = Byte.carriageReturn ∨ b = Byte.lineFeed ∧ ¬ second →
        (utf8 text).length + 1 = column) ∧
      (second → (utf8 text).length + 2 = column) := by
  intro r line column second
  have hk : k < (utf8 content).length := (List.getElem?_eq_some_iff.1 hb).1
  have hposition : r.position = .ofIndex (utf8 content) k := by
    rw [Reader.position_advanceBy_unread_succ, Nat.min_eq_left (Nat.le_of_lt hk)]
  refine ⟨(Reader.current?_advanceBy_unread_succ _ k).trans hb, ?_⟩
  -- The line feed of a pair is counted in its line, two columns behind the text.
  by_cases hsecond : second
  · obtain ⟨rfl, hpos, hcr⟩ := hsecond
    obtain ⟨j, rfl⟩ := Nat.exists_eq_succ_of_ne_zero (Nat.ne_of_gt hpos)
    obtain ⟨text, hline, hlength⟩ := lineOf?_second (j := j) hn hcr hb
    rw [← hposition] at hline hlength
    refine ⟨text, hline, fun h => absurd rfl h.1, ?_, fun _ => hlength⟩
    rintro (hcr' | ⟨-, hnot⟩)
    · cases hcr'
    · exact absurd ⟨rfl, hpos, hcr⟩ hnot
  · obtain ⟨front, l, back, offset, hstands⟩ := exists_standsIn hk
    have hline := hstands.lineOf?_eq hn
    have hcolumn := (hstands.ofIndex_eq hn).2
    rw [← hposition] at hline hcolumn
    change column = offset + 1 at hcolumn
    refine ⟨String.ofList l.text, hline, ?_, ?_, fun h => absurd h hsecond⟩
    · rintro ⟨hlf, hcr⟩
      rcases hstands.byte_cases hb with ⟨-, htext⟩ | ⟨hbreak, -⟩ | hpair
      · refine ⟨hcolumn ▸ Nat.succ_pos offset, ?_⟩
        rw [hcolumn, Nat.add_sub_cancel, utf8_ofList]
        exact htext
      · rw [isLineBreak_eq_false_iff.2 ⟨hlf, hcr⟩] at hbreak
        cases hbreak
      · exact absurd hpair hsecond
    · intro hends
      rcases hstands.byte_cases hb with ⟨hbreak, -⟩ | ⟨-, hlength⟩ | hpair
      · rcases hends with rfl | ⟨rfl, -⟩ <;> cases hbreak
      · rw [utf8_ofList]
        exact (congrArg (· + 1) hlength).trans hcolumn.symm
      · exact absurd hpair hsecond

/-- The text `é` and its ending of two bytes. The line feed is in column 4 of the first line. -/
theorem lineOf?_position_second_of_ending :
    let content := "é\r\nb"
    let r := (Reader.unread (utf8 content)).advanceBy 4
    (utf8 content).length ≤ 2 ^ 32 - 2 ∧ (utf8 content)[3]? = some Byte.lineFeed ∧
      r.position.column.toNat = 4 ∧
      ∃ text, lineOf? content r.position.line = some text ∧ (utf8 text).length + 2 = 4 := by
  intro content r
  have hn : (utf8 content).length ≤ 2 ^ 32 - 2 := by decide
  have hb : (utf8 content)[3]? = some Byte.lineFeed := by decide
  obtain ⟨-, text, hline, -, -, hsecond⟩ := lineOf?_position hn hb
  have hcolumn : r.position.column.toNat = 4 := by decide
  exact ⟨hn, hb, hcolumn, text, hline, (hsecond ⟨rfl, by decide, by decide⟩).trans hcolumn⟩

end Lexis

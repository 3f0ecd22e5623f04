import Lexis.Proofs.LineSplitting

/-! Where the lines of a text are.
A text is split into lines in one way only. The line with a number is a slice of the text, which is
looked for in the bytes, and both ends of the slice are between two characters. -/
namespace Lexis.Text

section
variable {α : Type} [DecidableEq α] [LineEndings α]

/-- Where the line `wanted` begins and ends if `number` is the number of the line in progress, which
begins at `start`, and the elements ahead begin at `index`. -/
def spanFrom? (wanted number : UInt32) (start index : Nat) : List α → Option (Nat × Nat)
  | [] => if number = wanted ∧ start < index then some (start, index) else none
  | [a] =>
    if isLineBreak a then
      if number = wanted then some (start, index) else none
    else if number = wanted then some (start, index + 1) else none
  | a :: b :: as =>
    if isLineBreak a then
      if number = wanted then some (start, index)
      else if a = LineEndings.carriageReturn ∧ b = LineEndings.lineFeed then
        spanFrom? wanted (number + 1) (index + 2) (index + 2) as
      else spanFrom? wanted (number + 1) (index + 1) (index + 1) (b :: as)
    else spanFrom? wanted number start (index + 1) (b :: as)

def span? (wanted : UInt32) (text : List α) : Option (Nat × Nat) :=
  if wanted = 0 then none else spanFrom? wanted 1 0 0 text

/-! The only split. -/

private theorem lines_cons_of_not_isLineBreak {a : α} (ha : isLineBreak a = false)
    (rest : List α) : lines (a :: rest) = consToFirst a (lines rest) := by
  cases rest with
  | nil => simp [lines, ha, consToFirst]
  | cons b rest =>
    have hcr : a ≠ LineEndings.carriageReturn := (isLineBreak_eq_false_iff.1 ha).2
    rw [lines, if_neg fun h => hcr h.1, if_neg (by simp [ha])]

private theorem lines_append_of_unbroken {text rest : List α} {l : Line α} {ls : List (Line α)}
    (h : Unbroken text) (hrest : lines rest = l :: ls) :
    lines (text ++ rest) = ⟨text ++ l.text, l.ending⟩ :: ls := by
  induction text with
  | nil => exact hrest
  | cons a text ih =>
    obtain ⟨ha, htext⟩ := List.forall_mem_cons.1 h
    rw [List.cons_append, lines_cons_of_not_isLineBreak ha, ih htext]
    rfl

private theorem lines_of_unbroken {text : List α} (hne : text ≠ []) (h : Unbroken text) :
    lines text = [⟨text, []⟩] := by
  obtain ⟨init, a, rfl⟩ := (List.eq_nil_or_concat' text).resolve_left hne
  have hinit : Unbroken init := fun b hb => h b (List.mem_append_left _ hb)
  have ha : isLineBreak a = false := h a (by simp)
  have hlast : lines [a] = [⟨[a], []⟩] := by simp [lines, ha]
  exact lines_append_of_unbroken hinit hlast

variable [LineEndings.Distinct α]

private theorem lines_append_of_isEnding {ending rest : List α} (h : IsEnding ending rest) :
    lines (ending ++ rest) = ⟨[], ending⟩ :: lines rest := by
  have hne := LineEndings.Distinct.ne (α := α)
  cases h with
  | lineFeed => cases rest <;> simp [lines, isLineBreak, hne]
  | carriageReturn hafter =>
    cases rest with
    | nil => simp [lines, isLineBreak]
    | cons b rest =>
      have hb : b ≠ LineEndings.lineFeed := fun hb => hafter (congrArg some hb)
      simp [lines, isLineBreak, hb]
  | both => simp [lines]

/-- Lines are found again in their text. -/
theorem Split.lines_joined {ls : List (Line α)} (h : Split ls) : lines (joined ls) = ls := by
  induction h with
  | nil => rfl
  | @last text hne htext =>
    rw [joined_cons, joined_nil, List.append_nil, List.append_nil]
    exact lines_of_unbroken hne htext
  | @cons text ending rest htext hending _ ih =>
    have hrest := lines_append_of_isEnding hending
    rw [joined_cons, lines_append_of_unbroken htext hrest, ih, List.append_nil]

theorem Split.unique {ls other : List (Line α)} (h : Split ls) (hother : Split other)
    (hjoined : joined other = joined ls) : other = ls := by
  rw [← hother.lines_joined, hjoined, h.lines_joined]

/-! The span of a line. -/

omit [LineEndings.Distinct α] in
private theorem spanFrom?_cons_of_unbroken (wanted number : UInt32) {start index : Nat}
    (hle : start ≤ index) {a : α} (ha : isLineBreak a = false) (rest : List α) :
    spanFrom? wanted number start index (a :: rest) =
      spanFrom? wanted number start (index + 1) rest := by
  cases rest with
  | nil => simp [spanFrom?, ha, Nat.lt_succ_of_le hle]
  | cons b rest => rw [spanFrom?, if_neg (by simp [ha])]

omit [LineEndings.Distinct α] in
private theorem spanFrom?_append_of_unbroken (wanted number : UInt32) {start index : Nat}
    (hle : start ≤ index) {text : List α} (h : Unbroken text) (rest : List α) :
    spanFrom? wanted number start index (text ++ rest) =
      spanFrom? wanted number start (index + text.length) rest := by
  induction text generalizing index with
  | nil => rfl
  | cons a text ih =>
    obtain ⟨ha, htext⟩ := List.forall_mem_cons.1 h
    rw [List.cons_append, spanFrom?_cons_of_unbroken wanted number hle ha,
      ih (Nat.le_succ_of_le hle) htext, List.length_cons,
      Nat.succ_add_eq_add_succ]

private theorem spanFrom?_append_of_isEnding (wanted number : UInt32) (start index : Nat)
    {ending rest : List α} (h : IsEnding ending rest) :
    spanFrom? wanted number start index (ending ++ rest) =
      if number = wanted then some (start, index)
      else spanFrom? wanted (number + 1) (index + ending.length) (index + ending.length) rest := by
  have hne := LineEndings.Distinct.ne (α := α)
  cases h with
  | lineFeed => cases rest <;> simp [spanFrom?, isLineBreak, hne]
  | carriageReturn hafter =>
    cases rest with
    | nil => simp [spanFrom?, isLineBreak]
    | cons b rest =>
      have hb : b ≠ LineEndings.lineFeed := fun hb => hafter (congrArg some hb)
      simp [spanFrom?, isLineBreak, hb]
  | both => simp [spanFrom?, isLineBreak]

def place? (start : Nat) (ls : List (Line α)) (k : Nat) : Option (Nat × Nat) :=
  ls[k]?.map fun l =>
    (start + (joined (ls.take k)).length, start + (joined (ls.take k)).length + l.text.length)

omit [DecidableEq α] [LineEndings α] [LineEndings.Distinct α] in
private theorem place?_cons_succ (start : Nat) (l : Line α) (ls : List (Line α)) (k : Nat) :
    place? start (l :: ls) (k + 1) = place? (start + l.text.length + l.ending.length) ls k := by
  rw [place?, place?, List.getElem?_cons_succ, List.take_succ_cons, joined_cons,
    List.length_append, List.length_append]
  simp only [Nat.add_assoc]

private theorem Split.spanFrom?_joined {ls : List (Line α)} (h : Split ls)
    {wanted number : UInt32} (hle : number.toNat ≤ wanted.toNat) (start : Nat) :
    spanFrom? wanted number start start (joined ls) =
      place? start ls (wanted.toNat - number.toNat) := by
  induction h generalizing number start with
  | nil => simp [spanFrom?, place?]
  | @last text hne htext =>
    rw [joined_cons, spanFrom?_append_of_unbroken _ _ (Nat.le_refl start) htext]
    simp only [joined_nil, List.append_nil, spanFrom?]
    by_cases hnumber : number = wanted
    · simp [hnumber, place?, List.length_pos_iff.2 hne]
    · obtain ⟨-, hdistance⟩ := distance_succ hle hnumber
      rw [if_neg fun h => hnumber h.1, hdistance, place?_cons_succ]
      rfl
  | @cons text ending rest htext hending _ ih =>
    rw [joined_cons, spanFrom?_append_of_unbroken _ _ (Nat.le_refl start) htext,
      spanFrom?_append_of_isEnding _ _ _ _ hending]
    by_cases hnumber : number = wanted
    · simp [hnumber, place?]
    · obtain ⟨hnext, hdistance⟩ := distance_succ hle hnumber
      rw [if_neg hnumber, ih hnext, hdistance, place?_cons_succ]

/-- The span with a number is that of the line at this place in the text, counted from 1. -/
theorem Split.span?_joined {ls : List (Line α)} (h : Split ls) (wanted : UInt32) :
    span? wanted (joined ls) = if wanted = 0 then none else place? 0 ls (wanted.toNat - 1) := by
  rw [span?]
  split
  · rfl
  · next hwanted =>
    have hpos : wanted.toNat ≠ 0 := fun h => hwanted (UInt32.toNat_inj.1 h)
    have hle : (1 : UInt32).toNat ≤ wanted.toNat := Nat.one_le_iff_ne_zero.2 hpos
    exact h.spanFrom?_joined hle 0

end

/-! Slices of the bytes of a text. -/

theorem joined_of_getElem? {α : Type} {ls : List (Line α)} {k : Nat} {l : Line α}
    (h : ls[k]? = some l) :
    joined ls = joined (ls.take k) ++ (l.text ++ (l.ending ++ joined (ls.drop (k + 1)))) := by
  obtain ⟨hk, rfl⟩ := List.getElem?_eq_some_iff.1 h
  rw [← joined_cons, ← List.drop_eq_getElem_cons hk, ← joined_append, List.take_append_drop]

theorem length_utf8 (text : String) : (utf8 text).length = text.utf8ByteSize := by
  have hbytes : (utf8 text).toByteArray = text.toByteArray := String.utf8Encode_toList
  rw [← String.size_toByteArray, ← hbytes, List.size_toByteArray]

/-- Between two characters the bytes of a text can be cut. -/
theorem isValid_length_encode {content : String} {front back : List Char}
    (h : content.toList = front ++ back) :
    (⟨(encode front).length⟩ : String.Pos.Raw).IsValid content := by
  have hcontent : content = String.ofList front ++ String.ofList back := by
    rw [← String.ofList_append, ← h, String.ofList_toList]
  refine String.Pos.Raw.isValid_iff_exists_append.2 ⟨_, _, hcontent, ?_⟩
  rw [← utf8_ofList, length_utf8]
  rfl

private theorem place?_map_encode (ls : List (Line Char)) (k : Nat) :
    place? 0 (ls.map Line.encode) k = ls[k]?.map fun l =>
      ((encode (joined (ls.take k))).length, (encode (joined (ls.take k) ++ l.text)).length) := by
  rw [place?, ← List.map_take, joined_map_encode, List.getElem?_map, Option.map_map]
  congr 1
  funext l
  simp [Line.encode, encode_append]

private theorem extract_place {content : String} {ls : List (Line Char)}
    (hjoined : joined ls = content.toList) {k : Nat} {l : Line Char} (h : ls[k]? = some l) :
    let start := (encode (joined (ls.take k))).length
    let stop := (encode (joined (ls.take k) ++ l.text)).length
    (utf8 content).extract start stop = encode l.text ∧ start ≤ stop ∧
      (⟨start⟩ : String.Pos.Raw).IsValid content ∧ (⟨stop⟩ : String.Pos.Raw).IsValid content := by
  intro start stop
  have hcontent := hjoined.symm.trans (joined_of_getElem? h)
  have hstop : stop = start + (encode l.text).length := by
    rw [← List.length_append, ← encode_append]
  refine ⟨?_, ?_, isValid_length_encode hcontent, ?_⟩
  · rw [List.extract_eq_take_drop, utf8_eq_encode, hcontent, encode_append, List.drop_left, hstop,
      Nat.add_sub_cancel_left, encode_append, List.take_left]
  · rw [hstop]
    exact Nat.le_add_right ..
  · rw [← List.append_assoc] at hcontent
    exact isValid_length_encode hcontent

end Lexis.Text

namespace Lexis

open Text

/-- A text is split into lines in one way only, and its lines are found by their numbers, counted
from 1. In the bytes of the text the same lines are found, as slices between two characters. -/
theorem lineOf?_split (content : String) :
    ∃ ls : List (Line Char), (Split ls ∧ joined ls = content.toList) ∧
      (∀ other, Split other → joined other = content.toList → other = ls) ∧
      (∀ number, lineOf? content number =
        if number = 0 then none else ls[number.toNat - 1]?.map fun l => String.ofList l.text) ∧
      ∀ number,
        ((span? number (utf8 content)).map fun span => (utf8 content).extract span.1 span.2) =
          (lineOf? content number).map utf8 ∧
        ∀ span ∈ span? number (utf8 content), span.1 ≤ span.2 ∧
          (⟨span.1⟩ : String.Pos.Raw).IsValid content ∧
          (⟨span.2⟩ : String.Pos.Raw).IsValid content := by
  obtain ⟨hsplit, hjoined⟩ := split_lines content.toList
  have hline (number : UInt32) : lineOf? content number = if number = 0 then none
      else (lines content.toList)[number.toNat - 1]?.map fun l => String.ofList l.text := by
    have hfound := hsplit.line?_joined number
    rw [hjoined] at hfound
    rw [lineOf?, hfound]
    split
    · rfl
    · rw [Option.map_map]
      rfl
  -- Encoding the lines of the characters gives the lines of the bytes.
  have hspan (number : UInt32) : span? number (utf8 content) = if number = 0 then none
      else place? 0 ((lines content.toList).map Line.encode) (number.toNat - 1) := by
    rw [← hsplit.encode.span?_joined, joined_map_encode, hjoined]
    rfl
  refine ⟨lines content.toList, ⟨hsplit, hjoined⟩, ?_, hline, ?_⟩
  · intro other hother hsame
    exact hsplit.unique hother (hsame.trans hjoined.symm)
  · intro number
    rw [hline, hspan]
    by_cases hzero : number = 0
    · rw [if_pos hzero, if_pos hzero]
      exact ⟨rfl, nofun⟩
    · rw [if_neg hzero, if_neg hzero, place?_map_encode]
      cases hl : (lines content.toList)[number.toNat - 1]? with
      | none => exact ⟨rfl, nofun⟩
      | some l =>
        obtain ⟨hslice, hends⟩ := extract_place hjoined hl
        refine ⟨?_, ?_⟩
        · simp only [Option.map_some, hslice, utf8_ofList]
        · intro span hmem
          obtain rfl := Option.some.inj hmem
          exact hends

end Lexis

import Mathlib.Data.List.Basic
import Lexis.Proofs.Ascii
import Lexis.Text.Lines

/-! The lines of a text.
A text is its lines in a row, and a line is found by its number. Encoding a text encodes its lines
one by one, since no character but the two that end lines is encoded with a byte of these. -/
namespace Lexis.Text

/-- The line feed is not the carriage return. -/
class LineEndings.Distinct (α : Type) [LineEndings α] : Prop where
  ne : (LineEndings.lineFeed : α) ≠ LineEndings.carriageReturn

instance : LineEndings.Distinct UInt8 := ⟨by decide⟩

instance : LineEndings.Distinct Char := ⟨by decide⟩

variable {α : Type}

def Line.whole (l : Line α) : List α :=
  l.text ++ l.ending

def joined (ls : List (Line α)) : List α :=
  ls.flatMap Line.whole

@[simp] theorem joined_nil : joined ([] : List (Line α)) = [] := rfl

@[simp] theorem joined_cons (l : Line α) (ls : List (Line α)) :
    joined (l :: ls) = l.text ++ (l.ending ++ joined ls) := by
  rw [joined, List.flatMap_cons, Line.whole, List.append_assoc]
  rfl

theorem joined_append (ls ls' : List (Line α)) : joined (ls ++ ls') = joined ls ++ joined ls' :=
  List.flatMap_append

private theorem joined_consToFirst (a : α) (ls : List (Line α)) :
    joined (consToFirst a ls) = a :: joined ls := by
  cases ls <;> simp [consToFirst]

/-- Every index of a text lies in one of its lines. -/
theorem exists_line_of_lt_length {ls : List (Line α)} {k : Nat} (h : k < (joined ls).length) :
    ∃ front l back offset, ls = front ++ l :: back ∧ offset < l.whole.length ∧
      k = (joined front).length + offset := by
  induction ls generalizing k with
  | nil => exact absurd h (Nat.not_lt_zero k)
  | cons m ls ih =>
    rcases Nat.lt_or_ge k m.whole.length with hk | hk
    · exact ⟨[], m, ls, k, rfl, hk, (Nat.zero_add k).symm⟩
    · rw [joined, List.flatMap_cons, List.length_append] at h
      obtain ⟨front, l, back, offset, rfl, hoffset, hindex⟩ := ih (k := k - m.whole.length) (by
        rw [joined]
        omega)
      refine ⟨m :: front, l, back, offset, rfl, hoffset, ?_⟩
      rw [joined, List.flatMap_cons, List.length_append, ← joined]
      omega

section
variable [DecidableEq α] [LineEndings α]

def Unbroken (text : List α) : Prop :=
  ∀ a ∈ text, isLineBreak a = false

instance (text : List α) : Decidable (Unbroken text) :=
  inferInstanceAs (Decidable (∀ a ∈ text, isLineBreak a = false))

/-- An ending in front of `after`. A carriage return takes along a line feed that follows it. -/
inductive IsEnding : List α → List α → Prop
  | lineFeed {after} : IsEnding [LineEndings.lineFeed] after
  | carriageReturn {after} (hafter : after.head? ≠ some LineEndings.lineFeed) :
      IsEnding [LineEndings.carriageReturn] after
  | both {after} : IsEnding [LineEndings.carriageReturn, LineEndings.lineFeed] after

/-- Lines as a text is split into them: nothing ends within a line, and every line has an ending,
except that the last may have none if it is not empty. -/
inductive Split : List (Line α) → Prop
  | nil : Split []
  | last {text} (hne : text ≠ []) (htext : Unbroken text) : Split [⟨text, []⟩]
  | cons {text ending rest} (htext : Unbroken text) (hending : IsEnding ending (joined rest))
      (hrest : Split rest) : Split (⟨text, ending⟩ :: rest)

theorem Unbroken.cons {a : α} {text : List α} (ha : isLineBreak a = false) (h : Unbroken text) :
    Unbroken (a :: text) :=
  List.forall_mem_cons.2 ⟨ha, h⟩

theorem unbroken_nil : Unbroken ([] : List α) := nofun

theorem isLineBreak_eq_false_iff {a : α} :
    isLineBreak a = false ↔ a ≠ LineEndings.lineFeed ∧ a ≠ LineEndings.carriageReturn := by
  simp [isLineBreak]

private theorem isEnding_singleton {a : α} {after : List α} (ha : isLineBreak a = true)
    (hlone : a = LineEndings.carriageReturn → after.head? ≠ some LineEndings.lineFeed) :
    IsEnding [a] after := by
  rcases Bool.or_eq_true _ _ ▸ ha with ha | ha
  · rw [of_decide_eq_true ha]
    exact .lineFeed
  · have hcr := of_decide_eq_true ha
    rw [hcr]
    exact .carriageReturn (hlone hcr)

private theorem Split.consToFirst {a : α} {ls : List (Line α)} (ha : isLineBreak a = false)
    (h : Split ls) : Split (consToFirst a ls) := by
  cases h with
  | nil => exact .last (List.cons_ne_nil a []) (unbroken_nil.cons ha)
  | last _ htext => exact .last (List.cons_ne_nil a _) (htext.cons ha)
  | cons htext hending hrest => exact .cons (htext.cons ha) hending hrest

/-- The first line, whose ending is missing only if no line follows. -/
theorem Split.of_cons {l : Line α} {rest : List (Line α)} (h : Split (l :: rest)) :
    Unbroken l.text ∧ Split rest ∧
      (IsEnding l.ending (joined rest) ∨ l.ending = [] ∧ rest = []) := by
  cases h with
  | last _ htext => exact ⟨htext, .nil, .inr ⟨rfl, rfl⟩⟩
  | cons htext hending hrest => exact ⟨htext, hrest, .inl hending⟩

theorem Split.of_append {front back : List (Line α)} (h : Split (front ++ back)) : Split back := by
  induction front with
  | nil => exact h
  | cons l front ih => exact ih h.of_cons.2.1

omit [DecidableEq α] in
theorem IsEnding.ne_nil {ending after : List α} (h : IsEnding ending after) : ending ≠ [] := by
  cases h <;> exact List.cons_ne_nil _ _

/-- A text has no more lines than elements. -/
theorem Split.length_le {ls : List (Line α)} (h : Split ls) : ls.length ≤ (joined ls).length := by
  induction h with
  | nil => exact Nat.le_refl _
  | last hne =>
    simp only [joined_cons, joined_nil, List.append_nil]
    exact List.length_pos_iff.2 hne
  | cons _ hending _ ih =>
    have hpos := List.length_pos_iff.2 hending.ne_nil
    simp only [joined_cons, List.length_append, List.length_cons]
    omega

/-- Every text is split into its lines. -/
theorem split_lines (text : List α) : Split (lines text) ∧ joined (lines text) = text := by
  fun_induction lines text with
  | case1 => exact ⟨.nil, rfl⟩
  | case2 a ha =>
    refine ⟨.cons unbroken_nil (isEnding_singleton ha ?_) .nil, rfl⟩
    intro _ h
    cases h
  | case3 a ha => exact ⟨.last (List.cons_ne_nil a []) (unbroken_nil.cons (by simpa using ha)), rfl⟩
  | case4 a b rest hpair ih =>
    obtain ⟨rfl, rfl⟩ := hpair
    refine ⟨.cons unbroken_nil .both ih.1, ?_⟩
    rw [joined_cons, ih.2]
    rfl
  | case5 a b rest hpair ha ih =>
    refine ⟨.cons unbroken_nil (isEnding_singleton ha ?_) ih.1, ?_⟩
    · intro hcr hlf
      rw [ih.2] at hlf
      exact hpair ⟨hcr, Option.some.inj hlf⟩
    · rw [joined_cons, ih.2]
      rfl
  | case6 a b rest _ ha ih =>
    refine ⟨ih.1.consToFirst (by simpa using ha), ?_⟩
    rw [joined_consToFirst, ih.2]

/-! A line by its number. -/

private theorem lineFrom?_cons_of_unbroken (wanted number : UInt32) (seen : List α) {a : α}
    (ha : isLineBreak a = false) (rest : List α) :
    lineFrom? wanted number seen (a :: rest) = lineFrom? wanted number (a :: seen) rest := by
  cases rest with
  | nil => simp [lineFrom?, ha]
  | cons b rest => rw [lineFrom?, if_neg (by simp [ha])]

private theorem lineFrom?_append_of_unbroken (wanted number : UInt32) (seen : List α)
    {text : List α} (h : Unbroken text) (rest : List α) :
    lineFrom? wanted number seen (text ++ rest) =
      lineFrom? wanted number (text.reverse ++ seen) rest := by
  induction text generalizing seen with
  | nil => rfl
  | cons a text ih =>
    obtain ⟨ha, htext⟩ := List.forall_mem_cons.1 h
    rw [List.cons_append, lineFrom?_cons_of_unbroken wanted number seen ha, ih _ htext,
      List.reverse_cons, List.append_assoc]
    rfl

omit [DecidableEq α] [LineEndings α] in
/-- The next number is one nearer to the wanted one. -/
theorem distance_succ {wanted number : UInt32} (hle : number.toNat ≤ wanted.toNat)
    (hne : number ≠ wanted) : (number + 1).toNat ≤ wanted.toNat ∧
      wanted.toNat - number.toNat = wanted.toNat - (number + 1).toNat + 1 := by
  have hdistinct : number.toNat ≠ wanted.toNat := fun h => hne (UInt32.toNat_inj.1 h)
  have hwanted := wanted.toNat_lt
  have hnext : (number + 1).toNat = number.toNat + 1 := by
    rw [UInt32.toNat_add]
    exact Nat.mod_eq_of_lt (by simp only [UInt32.toNat_one]; omega)
  omega

section
variable [LineEndings.Distinct α]

private theorem lineFrom?_append_of_isEnding (wanted number : UInt32) (seen : List α)
    {ending rest : List α} (h : IsEnding ending rest) :
    lineFrom? wanted number seen (ending ++ rest) =
      if number = wanted then some seen.reverse else lineFrom? wanted (number + 1) [] rest := by
  have hne := LineEndings.Distinct.ne (α := α)
  cases h with
  | lineFeed => cases rest <;> simp [lineFrom?, isLineBreak, hne]
  | carriageReturn hafter =>
    cases rest with
    | nil => simp [lineFrom?, isLineBreak]
    | cons b rest =>
      have hb : b ≠ LineEndings.lineFeed := fun hb => hafter (congrArg some hb)
      simp [lineFrom?, isLineBreak, hb]
  | both => simp [lineFrom?, isLineBreak]

private theorem Split.lineFrom?_joined {ls : List (Line α)} (h : Split ls) {wanted number : UInt32}
    (hle : number.toNat ≤ wanted.toNat) :
    lineFrom? wanted number [] (joined ls) = ls[wanted.toNat - number.toNat]?.map Line.text := by
  induction h generalizing number with
  | nil => simp [lineFrom?]
  | @last text hne htext =>
    rw [joined_cons, lineFrom?_append_of_unbroken _ _ _ htext]
    simp only [joined_nil, List.append_nil, lineFrom?]
    by_cases hnumber : number = wanted
    · simp [hnumber, hne]
    · have hlt : number.toNat ≠ wanted.toNat := fun h => hnumber (UInt32.toNat_inj.1 h)
      rw [if_neg fun h => hnumber h.1, List.getElem?_eq_none (by simp; omega)]
      rfl
  | @cons text ending rest htext hending _ ih =>
    rw [joined_cons, lineFrom?_append_of_unbroken _ _ _ htext,
      lineFrom?_append_of_isEnding _ _ _ hending]
    by_cases hnumber : number = wanted
    · simp [hnumber]
    · obtain ⟨hnext, hdistance⟩ := distance_succ hle hnumber
      rw [if_neg hnumber, ih hnext, hdistance, List.getElem?_cons_succ]

/-- The line with a number is the line at this place in the text, counted from 1. -/
theorem Split.line?_joined {ls : List (Line α)} (h : Split ls) (wanted : UInt32) :
    line? wanted (joined ls) =
      if wanted = 0 then none else ls[wanted.toNat - 1]?.map Line.text := by
  rw [line?]
  split
  · rfl
  · next hwanted =>
    have hpos : wanted.toNat ≠ 0 := fun h => hwanted (UInt32.toNat_inj.1 h)
    have hle : (1 : UInt32).toNat ≤ wanted.toNat := Nat.one_le_iff_ne_zero.2 hpos
    exact h.lineFrom?_joined hle

end

end

/-! Encoded lines. -/

def encode (chars : List Char) : List UInt8 :=
  chars.flatMap String.utf8EncodeChar

def Line.encode (l : Line Char) : Line UInt8 :=
  ⟨Text.encode l.text, Text.encode l.ending⟩

theorem utf8_eq_encode (text : String) : utf8 text = encode text.toList := rfl

theorem utf8_ofList (chars : List Char) : utf8 (String.ofList chars) = encode chars := by
  rw [utf8_eq_encode, String.toList_ofList]

theorem encode_append (chars more : List Char) :
    encode (chars ++ more) = encode chars ++ encode more :=
  List.flatMap_append

theorem encode_cons (c : Char) (chars : List Char) :
    encode (c :: chars) = String.utf8EncodeChar c ++ encode chars :=
  List.flatMap_cons

theorem encode_ne_nil {chars : List Char} (h : chars ≠ []) : encode chars ≠ [] := by
  obtain ⟨c, rest, rfl⟩ := List.exists_cons_of_ne_nil h
  rw [encode_cons]
  exact List.append_ne_nil_of_left_ne_nil (utf8EncodeChar_ne_nil c) _

theorem utf8_ne_nil {text : String} (h : text ≠ "") : utf8 text ≠ [] :=
  encode_ne_nil (mt String.toList_eq_nil_iff.1 h)

/-- A text that ends in a line feed ends in its byte. -/
theorem getLast?_utf8_of_lineFeed {text : String} (h : text.toList.getLast? = some '\n') :
    (utf8 text).getLast? = some LineEndings.lineFeed := by
  obtain ⟨init, hinit⟩ := List.getLast?_eq_some_iff.1 h
  rw [utf8_eq_encode, hinit, encode_append]
  exact List.getLast?_concat

/-- A character that ends no line is encoded without such bytes. -/
theorem isLineBreak_of_mem_utf8EncodeChar {c : Char} {b : UInt8} (hc : isLineBreak c = false)
    (hb : b ∈ String.utf8EncodeChar c) : isLineBreak b = false := by
  have hne := isLineBreak_eq_false_iff.1 hc
  refine isLineBreak_eq_false_iff.2 ⟨?_, ?_⟩
  · rintro rfl
    exact hne.1 (eq_ofUInt8_of_mem_utf8EncodeChar hb (by decide))
  · rintro rfl
    exact hne.2 (eq_ofUInt8_of_mem_utf8EncodeChar hb (by decide))

theorem Unbroken.encode {text : List Char} (h : Unbroken text) : Unbroken (encode text) := by
  intro b hb
  obtain ⟨c, hc, hb⟩ := List.mem_flatMap.1 hb
  exact isLineBreak_of_mem_utf8EncodeChar (h c hc) hb

/-- A line feed in front is one before and after the encoding. -/
theorem head?_encode_eq_lineFeed {chars : List Char}
    (h : (encode chars).head? = some LineEndings.lineFeed) :
    chars.head? = some LineEndings.lineFeed := by
  cases chars with
  | nil => cases h
  | cons c chars =>
    rw [encode_cons, List.head?_append_of_ne_nil _ (utf8EncodeChar_ne_nil c)] at h
    have hc := eq_ofUInt8_of_mem_utf8EncodeChar (List.mem_of_mem_head? h) (by decide)
    exact congrArg some hc

theorem IsEnding.encode {ending after : List Char} (h : IsEnding ending after) :
    IsEnding (encode ending) (encode after) := by
  cases h with
  | lineFeed => exact .lineFeed
  | carriageReturn hafter => exact .carriageReturn fun h => hafter (head?_encode_eq_lineFeed h)
  | both => exact .both

theorem joined_map_encode (ls : List (Line Char)) :
    joined (ls.map Line.encode) = encode (joined ls) := by
  induction ls with
  | nil => rfl
  | cons l ls ih => simp only [List.map_cons, joined_cons, Line.encode, encode_append, ih]

/-- The lines of an encoded text are the encoded lines. -/
theorem Split.encode {ls : List (Line Char)} (h : Split ls) : Split (ls.map Line.encode) := by
  induction h with
  | nil => exact .nil
  | last hne htext => exact .last (encode_ne_nil hne) htext.encode
  | cons htext hending _ ih =>
    refine .cons htext.encode ?_ ih
    rw [joined_map_encode]
    exact hending.encode

end Lexis.Text

import Mathlib.Data.List.Basic
import Lexis.Comment
import Lexis.Proofs.MaximalRun

/-! The grammar of comments, apart from how they are measured.
A block comment is an opening mark, comments and other bytes in any order, and a closing mark. The
measure of a comment agrees with this grammar, and what is no complete block comment has an
innermost opening mark that nothing closes: `exists_block_or_unclosed`. -/
namespace Lexis.Comment

def lineMark : List UInt8 := [Byte.slash, Byte.slash]

def opening : List UInt8 := [Byte.slash, Byte.dash]

def closing : List UInt8 := [Byte.dash, Byte.slash]

/-- A sequence of complete block comments and of bytes at which no mark begins. The bytes after the
sequence decide whether its last byte begins a mark. -/
inductive Inside : List UInt8 → List UInt8 → Prop
  | nil {after} : Inside [] after
  | comment {inner text after} (hinner : Inside inner closing) (htext : Inside text after) :
      Inside (opening ++ inner ++ closing ++ text) after
  | other {b text after} (hopen : ¬ opening <+: b :: (text ++ after))
      (hclose : ¬ closing <+: b :: (text ++ after)) (htext : Inside text after) :
      Inside (b :: text) after

def Block (comment : List UInt8) : Prop :=
  ∃ text, Inside text closing ∧ comment = opening ++ text ++ closing

/-- A line comment in front of `after`, which is a line break or the end of the source. -/
def Line (comment after : List UInt8) : Prop :=
  ∃ text, MaximalRun (fun b => !Byte.isLineBreak b) text after ∧ comment = lineMark ++ text

/-- Block comments that stay open to the end of the source. The innermost one opens at the
offset. -/
inductive Unclosed : List UInt8 → Nat → Prop
  | innermost {text} (htext : Inside text []) : Unclosed (opening ++ text) 0
  | outer {text rest offset} (htext : Inside text opening) (hrest : Unclosed rest offset) :
      Unclosed (opening ++ text ++ rest) (2 + text.length + offset)

theorem mark_prefix_iff {x y b : UInt8} {rest : List UInt8} :
    [x, y] <+: b :: rest ↔ x = b ∧ rest.head? = some y := by
  cases rest <;> simp [List.cons_prefix_cons, eq_comm]

theorem mark_prefix_congr {x y b : UInt8} {rest rest' : List UInt8}
    (h : rest.head? = rest'.head?) : [x, y] <+: b :: rest ↔ [x, y] <+: b :: rest' := by
  rw [mark_prefix_iff, mark_prefix_iff, h]

theorem head?_append_congr {after after' : List UInt8} (h : after.head? = after'.head?)
    (text : List UInt8) : (text ++ after).head? = (text ++ after').head? := by
  rw [List.head?_append, List.head?_append, h]

/-- Only the first byte after a sequence matters to it. -/
theorem Inside.congr {text after after' : List UInt8} (h : Inside text after)
    (hhead : after.head? = after'.head?) : Inside text after' := by
  induction h with
  | nil => exact .nil
  | comment hinner _ _ ih => exact .comment hinner (ih hhead)
  | other hopen hclose _ ih =>
    have hnext := head?_append_congr hhead
    refine .other ?_ ?_ (ih hhead)
    · rwa [opening, ← mark_prefix_congr (hnext _)]
    · rwa [closing, ← mark_prefix_congr (hnext _)]

theorem Unclosed.opening_prefix {bytes : List UInt8} {offset : Nat} (h : Unclosed bytes offset) :
    opening <+: bytes := by
  cases h with
  | innermost => exact List.prefix_append ..
  | outer =>
    rw [List.append_assoc]
    exact List.prefix_append ..

theorem Unclosed.head?_eq {bytes : List UInt8} {offset : Nat} (h : Unclosed bytes offset) :
    bytes.head? = opening.head? := by
  obtain ⟨tail, rfl⟩ := h.opening_prefix
  rfl

theorem Unclosed.offset_lt {bytes : List UInt8} {offset : Nat} (h : Unclosed bytes offset) :
    offset < bytes.length := by
  induction h with
  | innermost => simp [opening]
  | outer _ _ ih =>
    simp only [List.length_append, opening, List.length_cons, List.length_nil]
    omega

/-! The measure of a comment, step by step of the grammar. -/

private theorem insideExtent_opening (innermost : Nat) (outer : List Nat) (offset : Nat)
    (rest : List UInt8) :
    insideExtent innermost outer offset (opening ++ rest) =
      insideExtent offset (innermost :: outer) (offset + 2) rest := by
  simp [opening, insideExtent, Byte.slash, Byte.dash]

private theorem insideExtent_closing_cons (innermost o : Nat) (os : List Nat) (offset : Nat)
    (rest : List UInt8) :
    insideExtent innermost (o :: os) offset (closing ++ rest) =
      insideExtent o os (offset + 2) rest := by
  simp [closing, insideExtent]

private theorem insideExtent_closing_nil (innermost offset : Nat) (rest : List UInt8) :
    insideExtent innermost [] offset (closing ++ rest) = .upTo (offset + 2) := by
  simp [closing, insideExtent]

private theorem insideExtent_other {b : UInt8} {rest : List UInt8}
    (hopen : ¬ opening <+: b :: rest) (hclose : ¬ closing <+: b :: rest) (innermost : Nat)
    (outer : List Nat) (offset : Nat) :
    insideExtent innermost outer offset (b :: rest) =
      insideExtent innermost outer (offset + 1) rest := by
  cases rest with
  | nil => rfl
  | cons c rest =>
    rw [opening, mark_prefix_iff] at hopen
    rw [closing, mark_prefix_iff] at hclose
    rw [insideExtent.eq_def]
    simp only
    rw [if_neg, if_neg]
    · rintro ⟨rfl, rfl⟩
      exact hopen ⟨rfl, rfl⟩
    · rintro ⟨rfl, rfl⟩
      exact hclose ⟨rfl, rfl⟩

/-- A sequence is passed with the same comments open behind it as before it. -/
theorem Inside.insideExtent_append {text after : List UInt8} (h : Inside text after)
    {next : List UInt8} (hhead : after.head? = next.head?) (innermost : Nat) (outer : List Nat)
    (offset : Nat) :
    insideExtent innermost outer offset (text ++ next) =
      insideExtent innermost outer (offset + text.length) next := by
  induction h generalizing innermost outer offset next with
  | nil => rfl
  | @comment inner text _ _ _ ihinner ihtext =>
    have hinner : closing.head? = (closing ++ (text ++ next)).head? := rfl
    simp only [List.append_assoc]
    rw [insideExtent_opening, ihinner hinner, insideExtent_closing_cons, ihtext hhead]
    congr 1
    simp only [List.length_append, opening, closing, List.length_cons, List.length_nil]
    omega
  | other hopen hclose _ ih =>
    have hnext := head?_append_congr hhead
    rw [opening, mark_prefix_congr (hnext _)] at hopen
    rw [closing, mark_prefix_congr (hnext _)] at hclose
    rw [List.cons_append, insideExtent_other hopen hclose, ih hhead]
    congr 1
    rw [List.length_cons]
    omega

/-- Whatever follows it, a complete block comment is measured by its length. -/
theorem Block.blockExtent_append {comment : List UInt8} (h : Block comment) (next : List UInt8) :
    blockExtent (comment ++ next) = .upTo comment.length := by
  obtain ⟨text, htext, rfl⟩ := h
  have hdrop : (opening ++ text ++ closing ++ next).drop 2 = text ++ (closing ++ next) := by
    simp [opening]
  have hhead : closing.head? = (closing ++ next).head? := rfl
  have hlength : (opening ++ text ++ closing).length = 2 + text.length + 2 := by
    simp only [List.length_append, opening, closing, List.length_cons, List.length_nil]
  rw [blockExtent, hdrop, htext.insideExtent_append hhead, insideExtent_closing_nil, hlength]

private theorem Unclosed.insideExtent_eq {bytes : List UInt8} {innerOffset : Nat}
    (h : Unclosed bytes innerOffset) (innermost : Nat) (outer : List Nat) (offset : Nat) :
    insideExtent innermost outer offset bytes = .unclosed (offset + innerOffset) := by
  induction h generalizing innermost outer offset with
  | @innermost text htext =>
    have hend := htext.insideExtent_append rfl offset (innermost :: outer) (offset + 2)
    rw [List.append_nil] at hend
    rw [insideExtent_opening, hend]
    rfl
  | @outer text rest innerOffset htext hrest ih =>
    have hhead := hrest.head?_eq.symm
    rw [List.append_assoc, insideExtent_opening, htext.insideExtent_append hhead, ih]
    congr 1
    omega

/-- Open comments are measured by the innermost opening mark. -/
theorem Unclosed.blockExtent_eq {bytes : List UInt8} {offset : Nat} (h : Unclosed bytes offset) :
    blockExtent bytes = .unclosed offset := by
  cases h with
  | @innermost text htext =>
    have hend := htext.insideExtent_append rfl 0 [] 2
    rw [List.append_nil] at hend
    exact hend
  | @outer text rest offset htext hrest =>
    have hhead := hrest.head?_eq.symm
    have hdrop : (opening ++ text ++ rest).drop 2 = text ++ rest := by simp [opening]
    rw [blockExtent, hdrop, htext.insideExtent_append hhead, hrest.insideExtent_eq]

/-! Every sequence of bytes has a place in the grammar. -/

private theorem exists_inside (ahead : List UInt8) :
    ∃ text rest, ahead = text ++ rest ∧ Inside text rest ∧
      (rest = [] ∨ closing <+: rest ∨ ∃ offset, Unclosed rest offset) := by
  induction hn : ahead.length using Nat.strongRecOn generalizing ahead with
  | ind n ih =>
    subst hn
    cases ahead with
    | nil => exact ⟨[], [], rfl, .nil, .inl rfl⟩
    | cons b ahead =>
      by_cases hclose : closing <+: b :: ahead
      · exact ⟨[], b :: ahead, rfl, .nil, .inr (.inl hclose)⟩
      by_cases hopen : opening <+: b :: ahead
      · obtain ⟨inside, hinside⟩ := hopen
        rw [← hinside] at ih ⊢
        have hlt : inside.length < (opening ++ inside).length := by
          rw [List.length_append]
          exact Nat.lt_add_of_pos_left (by decide)
        -- One sequence is read behind the opening mark and, if a closing mark ends it, one more.
        obtain ⟨inner, rest, rfl, hinner, hrest⟩ := ih _ hlt inside rfl
        rcases hrest with rfl | ⟨behind, rfl⟩ | ⟨offset, hrest⟩
        · rw [List.append_nil]
          exact ⟨[], opening ++ inner, rfl, .nil, .inr (.inr ⟨_, .innermost hinner⟩)⟩
        · have hbehind : behind.length < (opening ++ (inner ++ (closing ++ behind))).length := by
            simp only [List.length_append, opening, List.length_cons]
            omega
          obtain ⟨text, rest, rfl, htext, hrest⟩ := ih _ hbehind behind rfl
          refine ⟨opening ++ inner ++ closing ++ text, rest, ?_, ?_, hrest⟩
          · simp only [List.append_assoc]
          · exact .comment (hinner.congr rfl) htext
        · rw [← List.append_assoc]
          exact ⟨[], _, rfl, .nil, .inr (.inr ⟨_, .outer (hinner.congr hrest.head?_eq) hrest⟩)⟩
      · obtain ⟨text, rest, rfl, htext, hrest⟩ := ih _ (by simp) ahead rfl
        exact ⟨b :: text, rest, rfl, .other hopen hclose htext, hrest⟩

/-- An opening mark begins a complete block comment, or comments that stay open. -/
theorem exists_block_or_unclosed {ahead : List UInt8} (h : opening <+: ahead) :
    (∃ comment rest, ahead = comment ++ rest ∧ Block comment) ∨
      ∃ offset, Unclosed ahead offset := by
  obtain ⟨inside, rfl⟩ := h
  obtain ⟨text, rest, rfl, htext, hrest⟩ := exists_inside inside
  rcases hrest with rfl | ⟨behind, rfl⟩ | ⟨offset, hrest⟩
  · rw [List.append_nil]
    exact .inr ⟨0, .innermost htext⟩
  · refine .inl ⟨opening ++ text ++ closing, behind, ?_, text, htext.congr rfl, rfl⟩
    simp only [List.append_assoc]
  · rw [← List.append_assoc]
    exact .inr ⟨_, .outer (htext.congr hrest.head?_eq) hrest⟩

/-! Line comments, and which form a comment has. -/

/-- A line comment reaches to the line break or to the end. -/
theorem Line.lineLength_append {comment after : List UInt8} (h : Line comment after) :
    lineLength (comment ++ after) = comment.length := by
  obtain ⟨text, htext, rfl⟩ := h
  have hmark : ∀ b ∈ lineMark, (!Byte.isLineBreak b) = true :=
    List.all_eq_true.1 (by decide)
  rw [lineLength, List.append_assoc, List.takeWhile_append_of_pos hmark, htext.takeWhile_append]

theorem Line.extent_append {comment after : List UInt8} (h : Line comment after) :
    extent .line (comment ++ after) = .upTo comment.length :=
  congrArg Extent.upTo h.lineLength_append

/-- Only the first byte after a line comment matters to it. -/
theorem Line.congr {comment after after' : List UInt8} (h : Line comment after)
    (hhead : after.head? = after'.head?) : Line comment after' := by
  obtain ⟨text, ⟨hall, hstops⟩, rfl⟩ := h
  refine ⟨text, ⟨hall, ?_⟩, rfl⟩
  rwa [← hhead]

theorem Line.isLineBreak_eq_false {comment after : List UInt8} (h : Line comment after) :
    ∀ b ∈ comment, Byte.isLineBreak b = false := by
  obtain ⟨text, htext, rfl⟩ := h
  have hmark : lineMark.any Byte.isLineBreak = false := by decide
  intro b hb
  rcases List.mem_append.1 hb with hb | hb
  · exact Bool.not_eq_true _ ▸ List.any_eq_false.1 hmark b hb
  · exact Bool.not_eq_true' _ ▸ htext.all b hb

/-- A line mark begins a line comment. -/
theorem exists_line {ahead : List UInt8} (h : lineMark <+: ahead) :
    ∃ comment rest, ahead = comment ++ rest ∧ Line comment rest := by
  obtain ⟨behind, rfl⟩ := h
  obtain ⟨text, rest, rfl, htext⟩ := MaximalRun.exists_append (fun b => !Byte.isLineBreak b) behind
  exact ⟨lineMark ++ text, rest, (List.append_assoc ..).symm, text, htext, rfl⟩

theorem form?_lineMark (rest : List UInt8) : form? (lineMark ++ rest) = some .line := by
  simp [form?, lineMark]

theorem form?_opening (rest : List UInt8) : form? (opening ++ rest) = some .block := by
  simp [form?, opening, Byte.slash, Byte.dash]

/-- Whatever follows it, a comment is recognised. -/
theorem Line.form?_append {comment after : List UInt8} (h : Line comment after) :
    form? (comment ++ after) = some .line := by
  obtain ⟨text, -, rfl⟩ := h
  rw [List.append_assoc, form?_lineMark]

theorem Block.form?_append {comment : List UInt8} (h : Block comment) (next : List UInt8) :
    form? (comment ++ next) = some .block := by
  obtain ⟨text, -, rfl⟩ := h
  rw [List.append_assoc, List.append_assoc, form?_opening]

theorem Unclosed.form?_eq {bytes : List UInt8} {offset : Nat} (h : Unclosed bytes offset) :
    form? bytes = some .block := by
  obtain ⟨rest, rfl⟩ := h.opening_prefix
  exact form?_opening rest

theorem head?_of_form? {ahead : List UInt8} {form : Form} (h : form? ahead = some form) :
    ahead.head? = some Byte.slash := by
  match ahead, h with
  | a :: b :: rest, h =>
    rw [form?] at h
    split at h
    · next hmark => exact congrArg some hmark.1
    split at h
    · next hmark => exact congrArg some hmark.1
    · cases h

theorem form?_eq_none {ahead : List UInt8} (hline : ¬ lineMark <+: ahead)
    (hblock : ¬ opening <+: ahead) : form? ahead = none := by
  match ahead with
  | [] => rfl
  | [_] => rfl
  | a :: b :: rest =>
    rw [lineMark, mark_prefix_iff] at hline
    rw [opening, mark_prefix_iff] at hblock
    rw [form?, if_neg, if_neg]
    · rintro ⟨rfl, rfl⟩
      exact hblock ⟨rfl, rfl⟩
    · rintro ⟨rfl, rfl⟩
      exact hline ⟨rfl, rfl⟩

end Lexis.Comment

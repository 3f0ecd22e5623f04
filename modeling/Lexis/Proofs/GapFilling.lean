import Lexis.Gap
import Lexis.Proofs.CommentNesting
import Lexis.Text.Lines

/-! The grammar of gaps: white space and comments, in any order and number.
What a gap is depends on what follows, because a line comment needs a line break or the end behind
it. Measuring a gap item by item gives the extent that a scan skips. -/
namespace Lexis

theorem Extent.shift_shift (m n : Nat) (e : Extent) : (e.shift m).shift n = e.shift (n + m) := by
  cases e <;> simp only [shift, Nat.add_assoc]

namespace Gap

def whiteSpace : List UInt8 := [0x20, 0x09, 0x0a, 0x0d, 0x0b, 0x0c]

theorem isBlank_iff_mem_whiteSpace {b : UInt8} : Byte.isBlank b = true ↔ b ∈ whiteSpace := by
  simp only [Byte.isBlank, whiteSpace, Bool.or_eq_true, Bool.and_eq_true, beq_iff_eq,
    decide_eq_true_eq, List.mem_cons, List.not_mem_nil, or_false, UInt8.le_iff_toNat_le,
    ← UInt8.toNat_inj]
  simp only [UInt8.reduceToNat]
  omega

/-- All that ends a line is white space. -/
theorem isLineBreak_of_not_mem_whiteSpace {b : UInt8} (h : b ∉ whiteSpace) :
    Text.isLineBreak b = false := by
  rw [Text.isLineBreak, Bool.or_eq_false_iff, decide_eq_false_iff_not, decide_eq_false_iff_not]
  constructor
  · rintro rfl
    exact h (by decide)
  · rintro rfl
    exact h (by decide)

/-- White space and complete comments in front of `after`. -/
inductive Fills : List UInt8 → List UInt8 → Prop
  | nil {after} : Fills [] after
  | blank {b gap after} (hblank : b ∈ whiteSpace) (hgap : Fills gap after) : Fills (b :: gap) after
  | line {comment gap after} (hline : Comment.Line comment (gap ++ after))
      (hgap : Fills gap after) : Fills (comment ++ gap) after
  | block {comment gap after} (hblock : Comment.Block comment) (hgap : Fills gap after) :
      Fills (comment ++ gap) after

structure Clear (ahead : List UInt8) : Prop where
  notBlank : ∀ b ∈ ahead.head?, b ∉ whiteSpace
  notLine : ¬ Comment.lineMark <+: ahead
  notBlock : ¬ Comment.opening <+: ahead

theorem clear_nil : Clear [] :=
  ⟨nofun, by decide, by decide⟩

theorem clear_cons {b : UInt8} {rest : List UInt8} (hblank : b ∉ whiteSpace)
    (hslash : b = Byte.slash → ∀ c ∈ rest.head?, c ≠ Byte.slash ∧ c ≠ Byte.dash) :
    Clear (b :: rest) := by
  refine ⟨?_, ?_, ?_⟩
  · intro c hc
    obtain rfl : b = c := by simpa using hc
    exact hblank
  · rw [Comment.lineMark, Comment.mark_prefix_iff]
    rintro ⟨hb, hhead⟩
    exact (hslash hb.symm _ hhead).1 rfl
  · rw [Comment.opening, Comment.mark_prefix_iff]
    rintro ⟨hb, hhead⟩
    exact (hslash hb.symm _ hhead).2 rfl

theorem not_mem_whiteSpace_of_class {p : UInt8 → Bool} {b : UInt8}
    (hp : whiteSpace.any p = false) (hb : p b = true) : b ∉ whiteSpace :=
  fun hblank => List.any_eq_false.1 hp b hblank hb

/-- No gap begins with a byte of a class without blanks and slashes. -/
theorem clear_of_class {p : UInt8 → Bool} {b : UInt8}
    (hp : (Byte.slash :: whiteSpace).any p = false) (hb : p b = true) (rest : List UInt8) :
    Clear (b :: rest) := by
  rw [List.any_eq_false] at hp
  refine clear_cons ?_ ?_
  · intro hblank
    exact hp b (List.mem_cons_of_mem _ hblank) hb
  · rintro rfl
    exact absurd hb (hp Byte.slash List.mem_cons_self)

theorem clear_of_isWordStart {b : UInt8} (h : Byte.isWordStart b = true) (rest : List UInt8) :
    Clear (b :: rest) :=
  clear_of_class (by decide) h rest

theorem clear_of_isDigit {b : UInt8} (h : Byte.isDigit b = true) (rest : List UInt8) :
    Clear (b :: rest) :=
  clear_of_class (by decide) h rest

/-- Only the first byte after a gap matters to it. -/
theorem Fills.congr {gap after after' : List UInt8} (h : Fills gap after)
    (hhead : after.head? = after'.head?) : Fills gap after' := by
  induction h with
  | nil => exact .nil
  | blank hblank _ ih => exact .blank hblank (ih hhead)
  | block hblock _ ih => exact .block hblock (ih hhead)
  | line hline _ ih =>
    refine .line (hline.congr ?_) (ih hhead)
    rw [List.head?_append, hhead, ← List.head?_append]

/-- Two gaps in a row are one. -/
theorem Fills.append {gap more after : List UInt8} (h : Fills gap (more ++ after))
    (hmore : Fills more after) : Fills (gap ++ more) after := by
  generalize hbehind : more ++ after = behind at h
  induction h with
  | nil => exact hmore
  | blank hblank _ ih => exact .blank hblank (ih hbehind)
  | line hline _ ih =>
    subst hbehind
    rw [List.append_assoc]
    refine .line ?_ (ih rfl)
    rwa [List.append_assoc]
  | block hblock _ ih =>
    rw [List.append_assoc]
    exact .block hblock (ih hbehind)

/-- A comment is a gap of its own. -/
theorem fills_of_comment {comment after : List UInt8}
    (h : Comment.Line comment after ∨ Comment.Block comment) : Fills comment after := by
  rw [← List.append_nil comment]
  rcases h with hline | hblock
  · exact .line hline .nil
  · exact .block hblock .nil

private theorem blanks_cons_of_not_blank {b : UInt8} {rest : List UInt8} (hb : b ∉ whiteSpace) :
    blanks (b :: rest) = 0 := by
  rw [← isBlank_iff_mem_whiteSpace] at hb
  simp [blanks, hb]

private theorem blanks_cons_of_blank {b : UInt8} (hb : b ∈ whiteSpace) (rest : List UInt8) :
    blanks (b :: rest) = blanks rest + 1 := by
  rw [← isBlank_iff_mem_whiteSpace] at hb
  simp [blanks, hb]

theorem extent_of_clear {ahead : List UInt8} (h : Clear ahead) : extent ahead = .upTo 0 := by
  have hblanks : blanks ahead = 0 := by
    cases ahead with
    | nil => rfl
    | cons b rest => exact blanks_cons_of_not_blank (h.notBlank b rfl)
  have hform : Comment.form? (ahead.drop (blanks ahead)) = none := by
    rw [hblanks]
    exact Comment.form?_eq_none h.notLine h.notBlock
  rw [extent_of_form?_eq_none hform, hblanks]

theorem extent_cons_of_blank {b : UInt8} (hb : b ∈ whiteSpace) (rest : List UInt8) :
    extent (b :: rest) = (extent rest).shift 1 := by
  have hblanks := blanks_cons_of_blank hb rest
  have hdrop : (b :: rest).drop (blanks (b :: rest)) = rest.drop (blanks rest) := by
    rw [hblanks, List.drop_succ_cons]
  cases hform : Comment.form? (rest.drop (blanks rest)) with
  | none =>
    have hform' := hform
    rw [← hdrop] at hform'
    rw [extent_of_form?_eq_none hform, extent_of_form?_eq_none hform', hblanks, Extent.shift,
      Nat.add_comm]
  | some form =>
    have hform' := hform
    rw [← hdrop] at hform'
    cases hextent : Comment.extent form (rest.drop (blanks rest)) with
    | unclosed opener =>
      have hextent' := hextent
      rw [← hdrop] at hextent'
      rw [extent_of_unclosed hform hextent, extent_of_unclosed hform' hextent', hblanks,
        Extent.shift]
      congr 1
      omega
    | upTo length =>
      have hextent' := hextent
      rw [← hdrop] at hextent'
      rw [extent_of_comment hform hextent, extent_of_comment hform' hextent', hdrop, hblanks,
        Extent.shift_shift]
      congr 1
      omega

private theorem blanks_of_form? {ahead : List UInt8} {form : Comment.Form}
    (h : Comment.form? ahead = some form) : blanks ahead = 0 := by
  obtain ⟨rest, rfl⟩ := List.head?_eq_some_iff.1 (Comment.head?_of_form? h)
  exact blanks_cons_of_not_blank (by decide)

private theorem extent_append_of_extent {comment rest : List UInt8} {form : Comment.Form}
    (hform : Comment.form? (comment ++ rest) = some form)
    (hextent : Comment.extent form (comment ++ rest) = .upTo comment.length) :
    extent (comment ++ rest) = (extent rest).shift comment.length := by
  have hblanks := blanks_of_form? hform
  have hdrop : (comment ++ rest).drop (blanks (comment ++ rest)) = comment ++ rest := by
    rw [hblanks, List.drop_zero]
  rw [← hdrop] at hform hextent
  rw [extent_of_comment hform hextent, hdrop, hblanks, Nat.zero_add, List.drop_left]

theorem extent_line_append {comment rest : List UInt8} (h : Comment.Line comment rest) :
    extent (comment ++ rest) = (extent rest).shift comment.length :=
  extent_append_of_extent h.form?_append h.extent_append

theorem extent_block_append {comment : List UInt8} (h : Comment.Block comment)
    (rest : List UInt8) : extent (comment ++ rest) = (extent rest).shift comment.length :=
  extent_append_of_extent (h.form?_append rest) (h.blockExtent_append rest)

theorem extent_of_comment_unclosed {ahead : List UInt8} {offset : Nat}
    (h : Comment.Unclosed ahead offset) : extent ahead = .unclosed offset := by
  have hblanks := blanks_of_form? h.form?_eq
  have hdrop : ahead.drop (blanks ahead) = ahead := by
    rw [hblanks, List.drop_zero]
  have hform := h.form?_eq
  have hextent : Comment.extent .block ahead = .unclosed offset := h.blockExtent_eq
  rw [← hdrop] at hform hextent
  rw [extent_of_unclosed hform hextent, hblanks, Nat.zero_add]

/-- Skipping a gap is skipping its items one after the other. -/
theorem Fills.extent_append {gap after : List UInt8} (h : Fills gap after) :
    extent (gap ++ after) = (extent after).shift gap.length := by
  induction h with
  | @nil after => cases he : extent after <;> simp [he, Extent.shift]
  | blank hblank _ ih =>
    rw [List.cons_append, extent_cons_of_blank hblank, ih, Extent.shift_shift, List.length_cons,
      Nat.add_comm]
  | line hline _ ih =>
    rw [List.append_assoc, extent_line_append hline, ih, Extent.shift_shift, List.length_append]
  | block hblock _ ih =>
    rw [List.append_assoc, extent_block_append hblock, ih, Extent.shift_shift, List.length_append]

/-- Every sequence of bytes begins with a longest gap. Behind it stands nothing that could prolong
it, unless block comments stay open there. -/
theorem exists_fills (ahead : List UInt8) :
    ∃ gap rest, ahead = gap ++ rest ∧ Fills gap rest ∧
      (Clear rest ∨ ∃ offset, Comment.Unclosed rest offset) := by
  -- A comment takes several bytes at once, so the induction is on the length.
  induction hn : ahead.length using Nat.strongRecOn generalizing ahead with
  | ind n ih =>
    subst hn
    by_cases hline : Comment.lineMark <+: ahead
    · obtain ⟨comment, behind, rfl, hcomment⟩ := Comment.exists_line hline
      have hlt : behind.length < (comment ++ behind).length := by
        obtain ⟨text, -, rfl⟩ := hcomment
        simp only [Comment.lineMark, List.length_append, List.length_cons]
        omega
      obtain ⟨gap, rest, rfl, hgap, hrest⟩ := ih _ hlt behind rfl
      exact ⟨comment ++ gap, rest, (List.append_assoc ..).symm, .line hcomment hgap, hrest⟩
    by_cases hblock : Comment.opening <+: ahead
    · rcases Comment.exists_block_or_unclosed hblock with ⟨comment, behind, rfl, hcomment⟩ | hopen
      · have hlt : behind.length < (comment ++ behind).length := by
          obtain ⟨text, -, rfl⟩ := hcomment
          simp only [Comment.opening, List.length_append, List.length_cons]
          omega
        obtain ⟨gap, rest, rfl, hgap, hrest⟩ := ih _ hlt behind rfl
        exact ⟨comment ++ gap, rest, (List.append_assoc ..).symm, .block hcomment hgap, hrest⟩
      · exact ⟨[], ahead, rfl, .nil, .inr hopen⟩
    cases ahead with
    | nil => exact ⟨[], [], rfl, .nil, .inl clear_nil⟩
    | cons b behind =>
      by_cases hblank : b ∈ whiteSpace
      · obtain ⟨gap, rest, rfl, hgap, hrest⟩ := ih _ (by simp) behind rfl
        exact ⟨b :: gap, rest, rfl, .blank hblank hgap, hrest⟩
      · refine ⟨[], b :: behind, rfl, .nil, .inl ⟨?_, hline, hblock⟩⟩
        intro c hc
        obtain rfl : b = c := by simpa using hc
        exact hblank

end Gap

end Lexis

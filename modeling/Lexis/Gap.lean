import Lexis.Comment

/-! What stands between two lexemes: blanks and comments, in any order and number. -/
namespace Lexis.Gap

def blanks (ahead : List UInt8) : Nat :=
  (ahead.takeWhile Byte.isBlank).length

private theorem length_drop_comment_lt {ahead : List UInt8} {n length : Nat} {form : Comment.Form}
    (hf : Comment.form? (ahead.drop n) = some form)
    (h : Comment.extent form (ahead.drop n) = .upTo length) :
    ((ahead.drop n).drop length).length < ahead.length := by
  have hpos := Comment.length_pos_of_extent_eq_upTo hf h
  have hne : ahead.drop n ≠ [] := by
    intro he
    simp [he, Comment.form?] at hf
  have := List.length_pos_iff.2 hne
  simp only [List.length_drop] at this ⊢
  omega

def extent (ahead : List UInt8) : Extent :=
  match hf : Comment.form? (ahead.drop (blanks ahead)) with
  | none => .upTo (blanks ahead)
  | some form =>
    match h : Comment.extent form (ahead.drop (blanks ahead)) with
    | .unclosed opener => .unclosed (blanks ahead + opener)
    | .upTo length =>
      have := length_drop_comment_lt hf h
      (extent ((ahead.drop (blanks ahead)).drop length)).shift (blanks ahead + length)
termination_by ahead.length
decreasing_by exact this

theorem extent_of_form?_eq_none {ahead : List UInt8}
    (hf : Comment.form? (ahead.drop (blanks ahead)) = none) :
    extent ahead = .upTo (blanks ahead) := by
  rw [extent]
  split
  · rfl
  · next h => simp [hf] at h

theorem extent_of_unclosed {ahead : List UInt8} {form : Comment.Form} {opener : Nat}
    (hf : Comment.form? (ahead.drop (blanks ahead)) = some form)
    (hc : Comment.extent form (ahead.drop (blanks ahead)) = .unclosed opener) :
    extent ahead = .unclosed (blanks ahead + opener) := by
  rw [extent]
  split
  · next h => simp [hf] at h
  · next form' h =>
    obtain rfl : form = form' := by simpa [hf] using h
    split
    · next h' => simp_all
    · next h' => simp [hc] at h'

theorem extent_of_comment {ahead : List UInt8} {form : Comment.Form} {length : Nat}
    (hf : Comment.form? (ahead.drop (blanks ahead)) = some form)
    (hc : Comment.extent form (ahead.drop (blanks ahead)) = .upTo length) :
    extent ahead =
      (extent ((ahead.drop (blanks ahead)).drop length)).shift (blanks ahead + length) := by
  rw [extent]
  split
  · next h => simp [hf] at h
  · next form' h =>
    obtain rfl : form = form' := by simpa [hf] using h
    split
    · next h' => simp [hc] at h'
    · next length' h' =>
      obtain rfl : length = length' := by simpa [hc] using h'
      rfl

end Lexis.Gap

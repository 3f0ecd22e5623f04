import Lexis.Byte

/-! The two forms of comments.
A line comment reaches to the next line break. A block comment stands between `/-` and `-/` and may
hold further block comments. Both are measured from the bytes ahead. -/
namespace Lexis

inductive Extent where
  /-- It ends after this many bytes. -/
  | upTo (length : Nat)
  /-- It holds a block comment that is never closed. The innermost one opens at this offset. -/
  | unclosed (opener : Nat)
deriving DecidableEq, Repr

def Extent.shift (n : Nat) : Extent → Extent
  | upTo length => upTo (n + length)
  | unclosed opener => unclosed (n + opener)

namespace Comment

inductive Form where
  | line
  | block
deriving DecidableEq, Repr

def form? (ahead : List UInt8) : Option Form :=
  match ahead with
  | a :: b :: _ =>
    if a = Byte.slash ∧ b = Byte.slash then some .line
    else if a = Byte.slash ∧ b = Byte.dash then some .block
    else none
  | _ => none

def lineLength (ahead : List UInt8) : Nat :=
  (ahead.takeWhile fun b => !Byte.isLineBreak b).length

/-- Reads on inside block comments. The opener of the innermost one stands at `innermost`, those
around it at `outer`, and the bytes ahead start at `offset`. A closing mark is looked for first. -/
def insideExtent (innermost : Nat) (outer : List Nat) (offset : Nat) : List UInt8 → Extent
  | [] => .unclosed innermost
  | [_] => .unclosed innermost
  | a :: b :: ahead =>
    if a = Byte.dash ∧ b = Byte.slash then
      match outer with
      | [] => .upTo (offset + 2)
      | o :: os => insideExtent o os (offset + 2) ahead
    else if a = Byte.slash ∧ b = Byte.dash then
      insideExtent offset (innermost :: outer) (offset + 2) ahead
    else insideExtent innermost outer (offset + 1) (b :: ahead)

/-- The extent of a block comment. Its first two bytes are taken for the opening mark. -/
def blockExtent (ahead : List UInt8) : Extent :=
  insideExtent 0 [] 2 (ahead.drop 2)

def extent (form : Form) (ahead : List UInt8) : Extent :=
  match form with
  | .line => .upTo (lineLength ahead)
  | .block => blockExtent ahead

theorem lt_of_insideExtent_eq_upTo {innermost : Nat} {outer : List Nat} {offset length : Nat}
    {ahead : List UInt8} (h : insideExtent innermost outer offset ahead = .upTo length) :
    offset < length := by
  fun_induction insideExtent innermost outer offset ahead with
  | case1 => simp at h
  | case2 => simp at h
  | case3 => simp at h; omega
  | case4 _ _ _ _ _ _ _ _ ih => have := ih h; omega
  | case5 _ _ _ _ _ _ _ _ ih => have := ih h; omega
  | case6 _ _ _ _ _ _ _ _ ih => have := ih h; omega

/-- A comment that has been recognised by its opening mark is not empty. -/
theorem length_pos_of_extent_eq_upTo {form : Form} {ahead : List UInt8} {length : Nat}
    (hf : form? ahead = some form) (h : extent form ahead = .upTo length) : 0 < length := by
  cases form with
  | block =>
    have := lt_of_insideExtent_eq_upTo h
    omega
  | line =>
    match ahead, hf with
    | a :: b :: rest, hf =>
      have ha : a = Byte.slash := by
        simp only [form?] at hf
        split at hf
        · next hs => exact hs.1
        · split at hf <;> simp at hf
      subst ha
      obtain rfl : lineLength (Byte.slash :: b :: rest) = length := by simpa [extent] using h
      simp [lineLength, List.takeWhile_cons, show Byte.isLineBreak Byte.slash = false from rfl]

end Comment

end Lexis

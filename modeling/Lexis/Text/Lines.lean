/-! Lines of a text.
A line ends at a line feed, at a carriage return, or at the two in this order. The text after the
last ending is a line only if it is not empty. The definitions are generic in the kind of text, so
that bytes and characters are split by one rule. -/
namespace Lexis.Text

/-- A kind of text with its two line-ending elements. -/
class LineEndings (α : Type) where
  lineFeed : α
  carriageReturn : α

instance : LineEndings UInt8 := ⟨0x0a, 0x0d⟩

instance : LineEndings Char := ⟨'\n', '\r'⟩

/-- A line with the ending that follows it, which is empty only at the end of the text. -/
structure Line (α : Type) where
  text : List α
  ending : List α
deriving DecidableEq, Repr

variable {α : Type} [DecidableEq α] [LineEndings α]

def isLineBreak (a : α) : Bool :=
  a = LineEndings.lineFeed || a = LineEndings.carriageReturn

def consToFirst (a : α) : List (Line α) → List (Line α)
  | [] => [⟨[a], []⟩]
  | l :: ls => ⟨a :: l.text, l.ending⟩ :: ls

def lines : List α → List (Line α)
  | [] => []
  | [a] => if isLineBreak a then [⟨[], [a]⟩] else [⟨[a], []⟩]
  | a :: b :: as =>
    if a = LineEndings.carriageReturn ∧ b = LineEndings.lineFeed then ⟨[], [a, b]⟩ :: lines as
    else if isLineBreak a then ⟨[], [a]⟩ :: lines (b :: as)
    else consToFirst a (lines (b :: as))

/-- The text of line `wanted` if `number` is the number of the line in progress, of which `seen`,
latest element first, has been read. -/
def lineFrom? (wanted number : UInt32) (seen : List α) : List α → Option (List α)
  | [] => if number = wanted ∧ seen ≠ [] then some seen.reverse else none
  | [a] =>
    if isLineBreak a then
      if number = wanted then some seen.reverse else none
    else if number = wanted then some (a :: seen).reverse else none
  | a :: b :: as =>
    if isLineBreak a then
      if number = wanted then some seen.reverse
      else if a = LineEndings.carriageReturn ∧ b = LineEndings.lineFeed then
        lineFrom? wanted (number + 1) [] as
      else lineFrom? wanted (number + 1) [] (b :: as)
    else lineFrom? wanted number (a :: seen) (b :: as)

def line? (wanted : UInt32) (text : List α) : Option (List α) :=
  if wanted = 0 then none else lineFrom? wanted 1 [] text

end Lexis.Text

namespace Lexis

def lineOf? (content : String) (number : UInt32) : Option String :=
  (Text.line? number content.toList).map String.ofList

end Lexis

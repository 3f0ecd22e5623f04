import Lexis.Text.Lines

/-! The byte classes of the language.
A source is read as raw bytes, so letters, digits and blanks are ASCII only and every byte from
0x80 up belongs to none of the classes. -/
namespace Lexis.Byte

def lineFeed : UInt8 := 0x0a

def carriageReturn : UInt8 := 0x0d

def slash : UInt8 := 0x2f

def dash : UInt8 := 0x2d

abbrev isLineBreak (b : UInt8) : Bool :=
  Text.isLineBreak b

/-- The space and the five control bytes from tab to carriage return. -/
def isBlank (b : UInt8) : Bool :=
  b == 0x20 || (0x09 ≤ b && b ≤ 0x0d)

def isDigit (b : UInt8) : Bool :=
  0x30 ≤ b && b ≤ 0x39

def isWordStart (b : UInt8) : Bool :=
  (0x41 ≤ b && b ≤ 0x5a) || (0x61 ≤ b && b ≤ 0x7a) || b == 0x5f

def isWordByte (b : UInt8) : Bool :=
  isWordStart b || isDigit b

def digitValue (b : UInt8) : Nat :=
  b.toNat - 0x30

theorem isWordByte_of_isWordStart {b : UInt8} (h : isWordStart b = true) : isWordByte b = true := by
  simp [isWordByte, h]

theorem digitValue_lt_ten {b : UInt8} (h : isDigit b = true) : digitValue b < 10 := by
  simp only [isDigit, Bool.and_eq_true, decide_eq_true_eq, UInt8.le_iff_toNat_le] at h
  have h₂ : b.toNat ≤ 0x39 := h.2
  simp only [digitValue]
  omega

end Lexis.Byte

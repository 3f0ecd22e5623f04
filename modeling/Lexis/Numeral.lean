import Lexis.Byte

/-! The value of a run of digits, in 32 bits with a sign. -/
namespace Lexis.Numeral

/-- The value after one more digit, as long as it can be represented. The test comes before the
product and the sum, so neither of them overflows. -/
def push (value? : Option Int32) (digit : UInt8) : Option Int32 :=
  value?.bind fun value =>
    let d := Int32.ofNat (Byte.digitValue digit)
    if (Int32.maxValue - d) / 10 < value then none else some (value * 10 + d)

def value? (digits : List UInt8) : Option Int32 :=
  digits.foldl push (some 0)

@[simp] theorem value?_nil : value? [] = some 0 := rfl

theorem value?_append_singleton (digits : List UInt8) (digit : UInt8) :
    value? (digits ++ [digit]) = push (value? digits) digit := by
  simp [value?]

end Lexis.Numeral

import Mathlib.Data.List.Induction
import Mathlib.Data.Nat.Digits.Defs
import Lexis.Numeral

/-! The number that digits stand for, and the digits whose number fits into 32 bits.
Reading digit by digit with a test before each step finds the exact number, and gives up exactly
when the number of the whole run is too large. -/
namespace Lexis.Numeral

def decimal (digits : List UInt8) : Nat :=
  Nat.ofDigits 10 (digits.reverse.map Byte.digitValue)

def greatest : Nat := 2147483647

@[simp] theorem decimal_nil : decimal [] = 0 := rfl

theorem decimal_append_singleton (digits : List UInt8) (digit : UInt8) :
    decimal (digits ++ [digit]) = decimal digits * 10 + Byte.digitValue digit := by
  simp only [decimal, List.reverse_append, List.reverse_singleton, List.singleton_append,
    List.map_cons, Nat.ofDigits_cons]
  omega

theorem toInt_digit {digit : UInt8} (h : Byte.isDigit digit = true) :
    (Int32.ofNat (Byte.digitValue digit)).toInt = Byte.digitValue digit := by
  have hlt := Byte.digitValue_lt_ten h
  exact Int32.toInt_ofNat_of_lt (by omega)

private theorem toInt_limit {digit : UInt8} (h : Byte.isDigit digit = true) :
    ((Int32.maxValue - Int32.ofNat (Byte.digitValue digit)) / 10).toInt =
      (greatest - Byte.digitValue digit : Int) / 10 := by
  have hlt := Byte.digitValue_lt_ten h
  have hsub : (Int32.maxValue - Int32.ofNat (Byte.digitValue digit)).toInt =
      greatest - Byte.digitValue digit := by
    rw [Int32.toInt_sub, toInt_digit h, Int32.toInt_maxValue, greatest]
    exact Int.bmod_eq_of_le (by omega) (by omega)
  rw [Int32.toInt_div_of_ne_right _ _ (by decide), hsub, show (10 : Int32).toInt = 10 from rfl]
  exact Int.tdiv_eq_ediv_of_nonneg (by simp only [greatest]; omega)

theorem toInt_mul_ten {value : Int32} {number : Nat} (hvalue : value.toInt = number)
    (hfits : number * 10 ≤ greatest) : (value * 10).toInt = number * 10 := by
  rw [Int32.toInt_mul, hvalue, show (10 : Int32).toInt = 10 from rfl]
  simp only [greatest] at hfits
  exact Int.bmod_eq_of_le (by omega) (by omega)

/-- One more digit is taken exactly if the longer number fits. -/
theorem push_some {value : Int32} {number : Nat} {digit : UInt8} (hvalue : value.toInt = number)
    (hdigit : Byte.isDigit digit = true) :
    (number * 10 + Byte.digitValue digit ≤ greatest →
      ∃ next, push (some value) digit = some next ∧
        next.toInt = (number * 10 + Byte.digitValue digit : Nat)) ∧
    (greatest < number * 10 + Byte.digitValue digit → push (some value) digit = none) := by
  have hlt := Byte.digitValue_lt_ten hdigit
  have hlimit : (Int32.maxValue - Int32.ofNat (Byte.digitValue digit)) / 10 < value ↔
      greatest < number * 10 + Byte.digitValue digit := by
    rw [Int32.lt_iff_toInt_lt, toInt_limit hdigit, hvalue]
    simp only [greatest]
    omega
  constructor
  · intro hfits
    refine ⟨value * 10 + Int32.ofNat (Byte.digitValue digit), ?_, ?_⟩
    · exact if_neg fun h => absurd (hlimit.1 h) (by omega)
    · rw [Int32.toInt_add, toInt_mul_ten hvalue (by omega), toInt_digit hdigit]
      simp only [greatest] at hfits
      rw [Int.bmod_eq_of_le (by omega) (by omega)]
      omega
  · intro hlarge
    exact if_pos (hlimit.2 hlarge)

/-- The value of digits is their number, as long as that fits. -/
theorem value?_spec {digits : List UInt8} (h : ∀ d ∈ digits, Byte.isDigit d = true) :
    (decimal digits ≤ greatest →
      ∃ value, value? digits = some value ∧ value.toInt = decimal digits) ∧
    (greatest < decimal digits → value? digits = none) := by
  induction digits using List.reverseRecOn with
  | nil => exact ⟨fun _ => ⟨0, rfl, rfl⟩, fun h => absurd h (by decide)⟩
  | append_singleton digits digit ih =>
    obtain ⟨ihfits, ihlarge⟩ := ih fun d hd => h d (List.mem_append_left _ hd)
    have hdigit := h digit (by simp)
    rw [value?_append_singleton, decimal_append_singleton]
    rcases Nat.lt_or_ge greatest (decimal digits) with hlarge | hfits
    · rw [ihlarge hlarge]
      exact ⟨fun hfits => by omega, fun _ => rfl⟩
    · obtain ⟨value, hsome, hvalue⟩ := ihfits hfits
      rw [hsome]
      exact push_some hvalue hdigit

theorem value?_eq_some {digits : List UInt8} {value : Int32}
    (h : ∀ d ∈ digits, Byte.isDigit d = true) (hvalue : value.toInt = decimal digits) :
    value? digits = some value := by
  have hfits : decimal digits ≤ greatest := by
    have := value.toInt_lt
    simp only [greatest]
    omega
  obtain ⟨found, hsome, hfound⟩ := (value?_spec h).1 hfits
  rw [hsome, Int32.toInt.inj (hfound.trans hvalue.symm)]

end Lexis.Numeral

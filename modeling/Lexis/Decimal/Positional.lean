import Lexis.Decimal.Shortest

/-! Decimals without an exponent.
A double is written with the fewest digits that read back as it, always in positional notation, and
without a point when it is whole. -/
namespace Lexis.Decimal

def positional (d : Decimal) : String :=
  let digits := Nat.toDigits 10 d.digits
  let places := (-d.exponent).toNat
  String.ofList <|
    if 0 ≤ d.exponent then digits ++ List.replicate d.exponent.toNat '0'
    else if places < digits.length then
      digits.take (digits.length - places) ++ '.' :: digits.drop (digits.length - places)
    else '0' :: '.' :: List.replicate (places - digits.length) '0' ++ digits

def magnitudeText (biased fraction : Nat) : String :=
  if biased = 2047 then "inf"
  else if biased = 0 ∧ fraction = 0 then "0"
  else (ofDouble biased fraction).positional

def textOfDouble (value : Float) : String :=
  let bits := value.toBits.toNat
  let biased := bits / Nat.pow 2 52 % Nat.pow 2 11
  let fraction := bits % Nat.pow 2 52
  if biased = 2047 ∧ fraction ≠ 0 then "NaN"
  else if bits / Nat.pow 2 63 = 1 then "-" ++ magnitudeText biased fraction
  else magnitudeText biased fraction

end Lexis.Decimal

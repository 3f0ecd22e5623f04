/-! The shortest decimal that reads back as a given binary number.
A binary number stands for all reals that round to it, an interval around it. For one digit, two
digits and so on, the two neighbours of the number on the grid of that many digits are tried. The
first grid with a neighbour inside the interval has the fewest digits, and of two such neighbours
the nearer one is taken. All arithmetic is exact. -/
namespace Lexis

structure Decimal where
  digits : Nat
  exponent : Int
deriving DecidableEq, Repr

namespace Decimal

/-- A positive number and the interval of the reals that round to it, as fractions with one
denominator. -/
structure Target where
  low : Nat
  value : Nat
  high : Nat
  denominator : Nat
  /-- Whether the ends of the interval belong to it. -/
  closed : Bool
deriving DecidableEq, Repr

namespace Target

/-- The target of `significand * 2 ^ exponent`. The interval reaches halfway to the neighbours. The
neighbour below is half as far as the one above when the exponent changes between them. Halves go
to the even significand. -/
def ofBinary (significand : Nat) (exponent : Int) (narrowBelow : Bool) : Target where
  low := (4 * significand - if narrowBelow then 1 else 2) * Nat.pow 2 (exponent - 2).toNat
  value := 4 * significand * Nat.pow 2 (exponent - 2).toNat
  high := (4 * significand + 2) * Nat.pow 2 (exponent - 2).toNat
  denominator := Nat.pow 2 (2 - exponent).toNat
  closed := significand % 2 = 0

def contains (t : Target) (d : Decimal) : Bool :=
  let numerator := d.digits * Nat.pow 10 d.exponent.toNat * t.denominator
  let denominator := Nat.pow 10 (-d.exponent).toNat
  if t.closed then t.low * denominator ≤ numerator && numerator ≤ t.high * denominator
  else t.low * denominator < numerator && numerator < t.high * denominator

def floorAt (t : Target) (exponent : Int) : Decimal :=
  ⟨t.value * Nat.pow 10 (-exponent).toNat / (t.denominator * Nat.pow 10 exponent.toNat), exponent⟩

/-- The multiple of `10 ^ exponent` in the interval that is nearest to the value. Halfway between
two, the greater one is taken. -/
def nearestAt? (t : Target) (exponent : Int) : Option Decimal :=
  let below := t.floorAt exponent
  let above : Decimal := ⟨below.digits + 1, exponent⟩
  let aboveIsNearer : Bool :=
    (2 * below.digits + 1) * Nat.pow 10 exponent.toNat * t.denominator
      ≤ 2 * t.value * Nat.pow 10 (-exponent).toNat
  match t.contains below, t.contains above with
  | true, true => some (if aboveIsNearer then above else below)
  | true, false => some below
  | false, true => some above
  | false, false => none

def magnitude (t : Target) : Int :=
  if t.denominator ≤ t.value then
    ((Nat.toDigits 10 (t.value / t.denominator)).length : Int) - 1
  else
    let zeros := (Nat.toDigits 10 (t.denominator / t.value)).length
    if t.denominator ≤ t.value * Nat.pow 10 (zeros - 1) then 1 - (zeros : Int) else -(zeros : Int)

/-- The decimal with the fewest digits in the interval. Seventeen digits are always enough. -/
def shortest (t : Target) : Decimal :=
  ((List.range 17).findSome? fun i => t.nearestAt? (t.magnitude - (i : Nat))).getD
    (t.floorAt (t.magnitude - 16))

end Target

def normalize (d : Decimal) : Decimal :=
  if h : 0 < d.digits ∧ d.digits % 10 = 0 then normalize ⟨d.digits / 10, d.exponent + 1⟩ else d
termination_by d.digits
decreasing_by
  have := h.1
  show d.digits / 10 < d.digits
  omega

def ofDouble (biased fraction : Nat) : Decimal :=
  let target :=
    if biased = 0 then Target.ofBinary fraction (-1074) false
    else Target.ofBinary (Nat.pow 2 52 + fraction) (biased - 1075) (fraction = 0 ∧ 1 < biased)
  normalize target.shortest

end Decimal

end Lexis

import Scoping.Decimal.Shortest

/-!
The text of a double.

A finite double is written with the fewest digits that read back as it, in positional notation
whatever its size: no exponent, no point when it is integral, and a sign also for negative zero.
A double is given by its 64 bits, so that the rule can be stated without floating-point arithmetic.
-/

namespace Scoping

namespace Decimal

/-- Positional notation: the digits with zeros added on the right up to the units, or a point with
at least one digit in front of it. -/
def positional (d : Decimal) : List Char :=
  let digits := Nat.toDigits 10 d.coefficient
  match d.exponent with
  | .ofNat zeros => digits ++ List.replicate zeros '0'
  | .negSucc n =>
    let places := n + 1
    let padded := List.replicate (places + 1 - digits.length) '0' ++ digits
    let whole := padded.length - places
    padded.take whole ++ '.' :: padded.drop whole

end Decimal

/-- The fields of a double: its sign, the eleven bits of its exponent and the fifty-two bits of its
fraction. -/
structure DoubleFields where
  negative : Bool
  exponent : Nat
  fraction : Nat
deriving DecidableEq

namespace DoubleFields

def ofBits (bits : UInt64) : DoubleFields :=
  ⟨decide (Nat.pow 2 63 ≤ bits.toNat), bits.toNat / Nat.pow 2 52 % Nat.pow 2 11,
    bits.toNat % Nat.pow 2 52⟩

/-- The interval that rounds to a finite double other than zero. The significand is counted in
quarters, so that half the gap to a neighbour is a whole number. Just above a power of two the gap
below is half as wide, except where the subnormal numbers begin. -/
def rounding (d : DoubleFields) : Rounding :=
  let significand := if d.exponent = 0 then d.fraction else Nat.pow 2 52 + d.fraction
  let gap := if d.fraction = 0 ∧ 1 < d.exponent then 1 else 2
  { below := 4 * significand - gap
    value := 4 * significand
    above := 4 * significand + 2
    unit := (max d.exponent 1 : Nat) - 1077
    closed := significand % 2 == 0 }

def magnitude (d : DoubleFields) : List Char :=
  if d.exponent = 0 ∧ d.fraction = 0 then ['0'] else d.rounding.shortest.positional

end DoubleFields

def doubleText (bits : UInt64) : String :=
  let d := DoubleFields.ofBits bits
  if d.exponent = Nat.pow 2 11 - 1 then
    if d.fraction ≠ 0 then "NaN" else if d.negative then "-inf" else "inf"
  else
    String.ofList (if d.negative then '-' :: d.magnitude else d.magnitude)

end Scoping

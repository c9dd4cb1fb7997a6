/-!
The shortest decimal that reads back as a given binary fraction.

A binary fraction owns the interval of reals that round to it. Among the decimals in that interval
`Rounding.shortest` picks one on the coarsest decimal grid that has any, of those the one nearest to
the fraction, and of two that are equally near the larger. All arithmetic is exact: a binary and a
decimal number are compared by multiplying both until they are natural numbers.
-/

namespace Scoping

/-- The number `coefficient * 10 ^ exponent`. -/
structure Decimal where
  coefficient : Nat
  exponent : Int
deriving DecidableEq

/-- A positive binary fraction with the interval of reals that round to it, all in units of
`2 ^ unit`. The ends belong to the interval when it is closed. -/
structure Rounding where
  below : Nat
  value : Nat
  above : Nat
  unit : Int
  closed : Bool
deriving DecidableEq

namespace Rounding

/-- The factor that `n * 2 ^ unit` is multiplied by to be compared with a multiple of
`10 ^ exponent`. -/
def binaryFactor (unit exponent : Int) : Nat :=
  Nat.pow 2 unit.toNat * Nat.pow 10 (-exponent).toNat

/-- The factor that `c * 10 ^ exponent` is multiplied by to be compared with a multiple of
`2 ^ unit`. -/
def decimalFactor (unit exponent : Int) : Nat :=
  Nat.pow 2 (-unit).toNat * Nat.pow 10 exponent.toNat

/-- Whether `coefficient * 10 ^ exponent` rounds to the fraction. -/
def contains (r : Rounding) (exponent : Int) (coefficient : Nat) : Bool :=
  let low := r.below * binaryFactor r.unit exponent
  let here := coefficient * decimalFactor r.unit exponent
  let high := r.above * binaryFactor r.unit exponent
  if r.closed then decide (low ≤ here) && decide (here ≤ high)
  else decide (low < here) && decide (here < high)

/-- The multiple of `10 ^ exponent` that is nearest to the fraction, if one rounds to it; the larger
of two that are equally near. -/
def onGrid (r : Rounding) (exponent : Int) : Option Nat :=
  let here := r.value * binaryFactor r.unit exponent
  let step := decimalFactor r.unit exponent
  let down := here / step
  let up := down + 1
  match r.contains exponent down, r.contains exponent up with
  | true, true => some (if here - down * step < up * step - here then down else up)
  | true, false => some down
  | false, true => some up
  | false, false => none

/-- The fraction itself, which always has a finite decimal expansion. -/
def exact (r : Rounding) : Decimal :=
  if 0 ≤ r.unit then ⟨r.value * Nat.pow 2 r.unit.toNat, 0⟩
  else ⟨r.value * Nat.pow 5 (-r.unit).toNat, r.unit⟩

/-- An exponent whose power of ten is above the fraction, by little: the fraction has `bits` binary
digits before the point, and `0.30103` is a bit more than the logarithm of two. -/
def topExponent (r : Rounding) : Int :=
  let bits := (r.value.log2 : Int) + 1 + r.unit
  (bits * 30103).fdiv 100000 + 1

/-- The decimal with the fewest digits that rounds to the fraction, nearest to it among those; the
larger of two that are equally near. Doubles never need more than seventeen digits, so two dozen
grids are enough. -/
def shortest (r : Rounding) : Decimal :=
  let hit := (List.range 24).findSome? fun (i : Nat) =>
    (r.onGrid (r.topExponent - i)).map fun c => (⟨c, r.topExponent - i⟩ : Decimal)
  hit.getD r.exact

end Rounding

end Scoping

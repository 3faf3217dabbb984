import Reckon.Numeric.Double

/-!
# Shortest — the fewest decimal digits that read back

A double is shown by a decimal number that is read back as the same double.  Of the decimal numbers
that read back, one with the fewest digits is taken, and of those the nearest to the double.

Everything is compared exactly.  With `m * 2 ^ e` for the double, the numbers that read back form an
interval between `m` plus and minus half a unit in the last place, which belongs to the interval
exactly if `m` is even.  If a decimal number with digits down to `10 ^ t` lies in the interval, then
so does one of the two neighbours of the double on that grid, so only these two are tried.
-/

namespace Reckon

/-- The magnitude `significand * 10 ^ exponent`. -/
structure DecimalMagnitude where
  significand : Nat
  exponent : Int
  deriving DecidableEq, Repr

namespace Shortest

/-! ## Comparing decimal with binary magnitudes

`c * 10 ^ t ≤ k * 2 ^ s` holds exactly if `decimalSide c t s ≤ binarySide k t s`: the powers with
negative exponents are moved to the other side.
-/

def decimalSide (c : Nat) (t s : Int) : Nat :=
  c * Nat.pow 10 t.toNat * Nat.pow 2 (-s).toNat

def binarySide (k : Nat) (t s : Int) : Nat :=
  k * Nat.pow 10 (-t).toNat * Nat.pow 2 s.toNat

/-! ## The interval that reads back -/

/-- Lower end, middle and upper end of the interval, in quarters of the last place. -/
structure Interval where
  lower : Nat
  middle : Nat
  upper : Nat
  closed : Bool
  deriving DecidableEq, Repr

/-- Below a power of two the doubles are twice as dense, so the interval reaches half as far. -/
def interval (m : BinaryMagnitude) : Interval where
  lower :=
    if m.significand = Double.fractionSize ∧ Double.leastExponent < m.exponent then
      4 * m.significand - 1
    else 4 * m.significand - 2
  middle := 4 * m.significand
  upper := 4 * m.significand + 2
  closed := m.significand % 2 = 0

/-- Whether `c * 10 ^ t` lies in an interval with the unit `2 ^ s`. -/
def Interval.holds (i : Interval) (c : Nat) (t s : Int) : Bool :=
  let value := decimalSide c t s
  let lower := binarySide i.lower t s
  let upper := binarySide i.upper t s
  if i.closed then lower ≤ value && value ≤ upper else lower < value && value < upper

/-! ## Search by the number of digits -/

/-- The exponent `k` of the power of ten with `10 ^ k ≤ n * 2 ^ s < 10 ^ (k + 1)`. -/
def floorLog10 (n : Nat) (s : Int) : Int :=
  let estimate : Int := ((n.log2 + s) * 30103).fdiv 100000
  if binarySide n estimate s < decimalSide 1 estimate s then estimate - 1
  else if decimalSide 1 (estimate + 1) s ≤ binarySide n (estimate + 1) s then estimate + 1
  else estimate

/-- The multiple of `10 ^ t` in the interval that is nearest to its middle, if there is one. -/
def onGrid? (i : Interval) (s t : Int) : Option DecimalMagnitude :=
  let unit := decimalSide 1 t s
  let middle := binarySide i.middle t s
  let below := middle / unit
  let rest := middle % unit
  match i.holds below t s, i.holds (below + 1) t s with
  | true, false => some ⟨below, t⟩
  | false, true => some ⟨below + 1, t⟩
  | true, true =>
    if 2 * rest < unit then some ⟨below, t⟩
    else if unit < 2 * rest then some ⟨below + 1, t⟩
    else some ⟨below + below % 2, t⟩
  | false, false => none

/-- Drops zeros at the end of the digits. -/
def dropZeros (c : Nat) (t : Int) : DecimalMagnitude :=
  if h : c ≠ 0 ∧ c % 10 = 0 then dropZeros (c / 10) (t + 1) else ⟨c, t⟩
termination_by c
decreasing_by omega

/-- The fewest digits that read back as a positive magnitude; seventeen always do. -/
def digits (m : BinaryMagnitude) : DecimalMagnitude :=
  let i := interval m
  let s := m.exponent - 2
  let top := floorLog10 i.middle s
  let found := (List.range 17).findSome? fun (k : Nat) => onGrid? i s (top - k)
  let best := found.getD ⟨binarySide i.middle (top - 16) s / decimalSide 1 (top - 16) s, top - 16⟩
  dropZeros best.significand best.exponent

end Shortest

end Reckon

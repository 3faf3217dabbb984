/-!
# Double — exact views of binary64 numbers

A finite double is a sign and a magnitude `significand * 2 ^ exponent`.  This file reads that view
off the bits of a `Float` and goes back from exact numbers to doubles.

* `Double.whole?` — the integer that a double is, if it is one;
* `Double.nearest?` — the double nearest to a quotient of natural numbers, ties going to the even
  significand, unless the quotient rounds beyond the largest double;
* `Double.ofInt?` — the double nearest to an integer;
* `Double.power`, `Double.sine`, `Double.cosine`, `Double.tangent` — the values at zero are written
  out, all others are those of the platform's library.
-/

namespace Reckon

/-- The magnitude `significand * 2 ^ exponent`. -/
structure BinaryMagnitude where
  significand : Nat
  exponent : Int
  deriving DecidableEq, Repr

namespace Double

/-! ## Constants -/

def infinity : Float :=
  Float.ofBits 0x7FF0000000000000

def notANumber : Float :=
  Float.ofBits 0x7FF8000000000000

/-- Bits of a magnitude below the biased exponent. -/
def fractionSize : Nat := Nat.pow 2 52

/-- The bits, read as a number, from which on a magnitude is infinite. -/
def infiniteBits : Nat := 2047 * fractionSize

/-- The exponent of the least significand bit in the subnormal range. -/
def leastExponent : Int := -1074

/-! ## From bits to numbers -/

/-- Whether the sign bit is set; negative zero has it, too. -/
def isNegative (x : Float) : Bool :=
  decide (Nat.pow 2 63 ≤ x.toBits.toNat)

/-- The magnitude of a finite double, the sign left out. -/
def magnitude? (x : Float) : Option BinaryMagnitude :=
  let bits := x.toBits.toNat % Nat.pow 2 63
  if infiniteBits ≤ bits then none
  else if bits < fractionSize then some ⟨bits, leastExponent⟩
  else some ⟨fractionSize + bits % fractionSize, leastExponent + (bits / fractionSize - 1 : Nat)⟩

/-- The natural number that a magnitude is, if it is one. -/
def wholeMagnitude? (m : BinaryMagnitude) : Option Nat :=
  if 0 ≤ m.exponent then some (m.significand * Nat.pow 2 m.exponent.toNat)
  else
    let unit := Nat.pow 2 (-m.exponent).toNat
    if m.significand % unit = 0 then some (m.significand / unit) else none

/-- The integer that a double is; none for fractions, infinities and not-a-number. -/
def whole? (x : Float) : Option Int :=
  ((magnitude? x).bind wholeMagnitude?).map fun n => if isNegative x then -(n : Int) else n

/-! ## From numbers to bits -/

/-- The quotient rounded to a natural number, a half going to the even neighbour. -/
def roundHalfEven (num den : Nat) : Nat :=
  let floor := num / den
  let rest := num % den
  if 2 * rest < den then floor
  else if den < 2 * rest then floor + 1
  else floor + floor % 2

/-- The exponent `k` of the power of two with `2 ^ k ≤ num / den < 2 ^ (k + 1)`. -/
def floorLog2 (num den : Nat) : Int :=
  let estimate : Int := (num.log2 : Int) - den.log2
  if num * Nat.pow 2 (-estimate).toNat < den * Nat.pow 2 estimate.toNat then estimate - 1
  else estimate

/--
The bits of the magnitude nearest to a positive quotient.  The significand is rounded to at most
53 bits; one that reaches `2 ^ 53` carries into the exponent by the addition itself.
-/
def nearestBits (num den : Nat) : Nat :=
  let exponent := max (floorLog2 num den - 52) leastExponent
  let significand :=
    roundHalfEven (num * Nat.pow 2 (-exponent).toNat) (den * Nat.pow 2 exponent.toNat)
  (exponent - leastExponent).toNat * fractionSize + significand

/-- The double nearest to a quotient; none if that would be infinite. -/
def nearest? (num den : Nat) : Option Float :=
  if num = 0 then some 0
  else
    let bits := nearestBits num den
    if bits < infiniteBits then some (Float.ofBits (UInt64.ofNat bits)) else none

/-- A magnitude with its sign. -/
def signed (negative : Bool) (magnitude : Float) : Float :=
  if negative then -magnitude else magnitude

/-- The double nearest to an integer; none if that would be infinite. -/
def ofInt? (n : Int) : Option Float :=
  (nearest? n.natAbs 1).map (signed (decide (n < 0)))

/-! ## Powers -/

/-- Whether a double is an odd integer. -/
def isOdd (x : Float) : Bool :=
  (whole? x).any (· % 2 = 1)

/--
The power of a zero with an exponent other than zero.  A negative exponent is a pole: the result is
infinite, and negative exactly if the base is negative zero and the exponent is odd.
-/
def powerOfZero (x y : Float) : Float :=
  if y < 0 then
    if isNegative x && isOdd y then -infinity else infinity
  else if y.isNaN then y
  else if isOdd y then x
  else 0

/-- The power `x ^ y`; with an exponent of zero it is one for any base. -/
def power (x y : Float) : Float :=
  if y == 0 then 1
  else if x == 0 then powerOfZero x y
  else Float.pow x y

/-! ## Circular functions -/

def sine (x : Float) : Float :=
  if x == 0 then x else Float.sin x

def cosine (x : Float) : Float :=
  if x == 0 then 1 else Float.cos x

def tangent (x : Float) : Float :=
  if x == 0 then x else Float.tan x

theorem nearest?_zero (den : Nat) : nearest? 0 den = some 0 := rfl

end Double

end Reckon

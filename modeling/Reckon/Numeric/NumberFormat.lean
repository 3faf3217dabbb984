import Reckon.Numeric.Shortest

/-!
# NumberFormat — how doubles are laid out

The digits of a double come from `Shortest.digits`; a `NumberFormat` decides how they are laid out.
Two formats are in use and they differ in the words for the values that have no digits:
`NumberFormat.plain` for printed values and `NumberFormat.json` for members of a JSON array.
-/

namespace Reckon

/-- The decisions of a number format. -/
structure NumberFormat where
  /-- The least decimal exponent that is written positionally. -/
  positionalFrom : Int
  /-- The least decimal exponent above these that is written with an exponent again. -/
  positionalBelow : Int
  /-- The least number of digits of an exponent. -/
  exponentDigits : Nat
  infinity : String
  notANumber : String
  deriving DecidableEq, Repr

namespace NumberFormat

/-- Numbers from `1e-04` up to below `1e+16` are positional; exponents have at least two digits. -/
def plain : NumberFormat where
  positionalFrom := -4
  positionalBelow := 16
  exponentDigits := 2
  infinity := "inf"
  notANumber := "nan"

/-- The plain layout, with the names of infinity and not-a-number as JSON texts spell them. -/
def json : NumberFormat :=
  { plain with infinity := "Infinity", notANumber := "NaN" }

/-- The decimal digits of a natural number. -/
def decimalDigits (n : Nat) : List Char :=
  Nat.toDigits 10 n

/-- The digits of a natural number, filled up with zeros at the front. -/
def padded (width n : Nat) : List Char :=
  let ds := decimalDigits n
  List.replicate (width - ds.length) '0' ++ ds

/-- Digits around a point; a whole number keeps one zero behind the point. -/
def positional (ds : List Char) (exponent : Int) : List Char :=
  if exponent < 0 then '0' :: '.' :: List.replicate ((-exponent).toNat - 1) '0' ++ ds
  else
    let wholeCount := exponent.toNat + 1
    let whole := ds.take wholeCount ++ List.replicate (wholeCount - ds.length) '0'
    let fraction := ds.drop wholeCount
    whole ++ '.' :: (if fraction.isEmpty then ['0'] else fraction)

/-- One digit, the other digits behind a point if there are any, and the exponent with its sign. -/
def scientific (f : NumberFormat) (ds : List Char) (exponent : Int) : List Char :=
  let fraction := ds.drop 1
  let sign := if exponent < 0 then '-' else '+'
  ds.take 1 ++ (if fraction.isEmpty then [] else '.' :: fraction) ++
    'e' :: sign :: padded f.exponentDigits exponent.natAbs

/-- The text of a positive decimal magnitude. -/
def magnitude (f : NumberFormat) (d : DecimalMagnitude) : List Char :=
  let ds := decimalDigits d.significand
  let exponent := d.exponent + (ds.length - 1 : Nat)
  if f.positionalFrom ≤ exponent ∧ exponent < f.positionalBelow then positional ds exponent
  else f.scientific ds exponent

/-- The characters of a double. -/
def characters (f : NumberFormat) (x : Float) : List Char :=
  if x.isNaN then f.notANumber.toList
  else
    let unsigned :=
      match Double.magnitude? x with
      | none => f.infinity.toList
      | some m => if m.significand = 0 then ['0', '.', '0'] else f.magnitude (Shortest.digits m)
    if Double.isNegative x then '-' :: unsigned else unsigned

/-- The text of a double. -/
def write (f : NumberFormat) (x : Float) : String :=
  String.ofList (f.characters x)

end NumberFormat

end Reckon

import Reckon.Error
import Reckon.Numeric.Decimal

/-!
# Literal — the numbers that number tokens denote

A number literal is an integer in radix sixteen, eight or two with a zero and a letter in front, or
else a decimal numeral.  Either way it denotes the nearest double.  They differ in range: a decimal
numeral too large for a double is infinite, an integer in another radix is refused.

The number tokens of a source text are plain.  In a token from elsewhere, an underscore may stand
between two digits and in front of the first digit of a radix, and a margin of white space may be
left: behind an integer with a radix, on both sides of a decimal numeral.
-/

namespace Reckon
namespace Literal

/-- The radix that the letter behind a leading zero stands for. -/
def radix? (c : Char) : Option Nat :=
  if c = 'x' ∨ c = 'X' then some 16
  else if c = 'o' ∨ c = 'O' then some 8
  else if c = 'b' ∨ c = 'B' then some 2
  else none

/-- The natural number that the rest of a literal behind its radix denotes. -/
def radixNumber? (radix : Nat) (cs : List Char) : Option Nat :=
  let digit c := (Text.radixDigit? 16 c).isSome
  (Text.dropSeparators? digit true ((Text.trimEnd Text.isMargin cs).map Text.plainDigit)).bind
    (Text.readRadix? radix)

/-- The number of a literal with the given rest behind its radix. -/
def radixValue (text : String) (radix : Nat) (cs : List Char) : Except Error Float :=
  match radixNumber? radix cs with
  | none => .error (.limit (.malformedInteger text 0))
  | some n =>
    match Double.nearest? n 1 with
    | some x => .ok x
    | none => .error (.limit .integerTooLarge)

/-- The number of a decimal literal. -/
def decimalValue (text : String) : Except Error Float :=
  match (Text.dropSeparators? Text.isDecimalDigit false text.toList).bind Decimal.read? with
  | none => .error (.limit (.malformedDecimal text))
  | some d => .ok d.toDouble

/-- The number that a literal denotes. -/
def value (text : String) : Except Error Float :=
  match text.toList with
  | '0' :: c :: cs =>
    match radix? c with
    | some radix => radixValue text radix cs
    | none => decimalValue text
  | _ => decimalValue text

end Literal
end Reckon

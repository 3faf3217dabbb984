import Reckon.Numeric.Double
import Reckon.Text.Blank
import Reckon.Text.Digit

/-!
# Decimal — decimal numerals and the doubles nearest to them

`Decimal.read?` reads a decimal numeral: digits of any script with at most one point, an optional
sign, an optional exponent, or one of the words for infinity and not-a-number.
`Decimal.readExtended?` also reads the words for a not-a-number that signals or that carries a
diagnostic number.  `Decimal.toDouble` is the double nearest to a numeral, infinite if the numeral
is too large.
-/

namespace Reckon

/-- What a decimal numeral denotes. -/
inductive Decimal where
  /-- Plus or minus `coefficient * 10 ^ exponent`. -/
  | finite (negative : Bool) (coefficient : Nat) (exponent : Int)
  | infinite (negative : Bool)
  | quiet
  | signaling
  deriving DecidableEq, Repr

namespace Decimal

/-! ## Reading -/

/-- The values of the decimal digits at the front, and what follows them. -/
def spanDigits : List Char → List Nat × List Char
  | [] => ([], [])
  | c :: cs =>
    match Text.decimalDigit? c with
    | some d =>
      let (ds, rest) := spanDigits cs
      (d :: ds, rest)
    | none => ([], c :: cs)

/-- A sign at the front, if there is one: whether it is a minus, and what follows. -/
def spanSign : List Char → Bool × List Char
  | '-' :: cs => (true, cs)
  | '+' :: cs => (false, cs)
  | cs => (false, cs)

/-- The exponent part that makes up the rest of a numeral; nothing at all is the exponent zero. -/
def readExponent? : List Char → Option Int
  | [] => some 0
  | e :: cs =>
    if e = 'e' ∨ e = 'E' then
      let (negative, cs) := spanSign cs
      match spanDigits cs with
      | (d :: ds, []) =>
        let n : Int := Text.ofDigits 10 (d :: ds)
        some (if negative then -n else n)
      | _ => none
    else none

/-- The digits behind a point at the front, and what follows them. -/
def spanFraction : List Char → List Nat × List Char
  | '.' :: cs => spanDigits cs
  | cs => ([], cs)

/-- Digits with at most one point and an optional exponent, as a coefficient and an exponent. -/
def readUnsigned? (cs : List Char) : Option (Nat × Int) :=
  let (whole, cs) := spanDigits cs
  let (fraction, cs) := spanFraction cs
  if whole.isEmpty && fraction.isEmpty then none
  else
    (readExponent? cs).map fun e => (Text.ofDigits 10 (whole ++ fraction), e - fraction.length)

/-- The words that stand for values without digits, in any letter case. -/
def readWord? (negative : Bool) (cs : List Char) : Option Decimal :=
  let word := String.ofList (cs.map Char.toLower)
  if word = "inf" ∨ word = "infinity" then some (.infinite negative)
  else if word = "nan" then some .quiet
  else none

/-- The words for a not-a-number that signals or that carries a number, in any letter case; the
number makes no difference. -/
def readDiagnostic? (cs : List Char) : Option Decimal :=
  let word := String.ofList ((Text.trimEnd Text.isDecimalDigit cs).map Char.toLower)
  if word = "nan" then some .quiet
  else if word = "snan" then some .signaling
  else none

/-- The numeral that a text without a margin is; `other?` reads what has no digits. -/
def readBare? (other? : Bool → List Char → Option Decimal) (cs : List Char) : Option Decimal :=
  let (negative, cs) := spanSign cs
  match readUnsigned? cs with
  | some (coefficient, exponent) => some (.finite negative coefficient exponent)
  | none => other? negative cs

/-- The numeral that a text is, its margin left out. -/
def read? (cs : List Char) : Option Decimal :=
  readBare? readWord? (Text.trim Text.isMargin cs)

/-- The numeral that a text in the extended notation is, white space around it and all underscores
left out. -/
def readExtended? (cs : List Char) : Option Decimal :=
  readBare? (fun negative cs => (readWord? negative cs).or (readDiagnostic? cs))
    ((Text.trim Text.isBlank cs).filter (· ≠ '_'))

/-! ## Rounding -/

/-- Whether `coefficient * 10 ^ exponent` is too small for any digit of a double. -/
def vanishes (coefficient : Nat) (exponent : Int) : Bool :=
  coefficient = 0 || decide (exponent < -(coefficient.log2 + 400 : Nat))

/-- Whether a coefficient other than zero is scaled beyond every double. -/
def exceeds (exponent : Int) : Bool :=
  decide (310 < exponent)

/-- The magnitude nearest to `coefficient * 10 ^ exponent`. -/
def nearestMagnitude (coefficient : Nat) (exponent : Int) : Float :=
  if vanishes coefficient exponent then 0
  else if exceeds exponent then Double.infinity
  else
    (Double.nearest? (coefficient * Nat.pow 10 exponent.toNat) (Nat.pow 10 (-exponent).toNat)).getD
      Double.infinity

/-- The double nearest to a numeral. -/
def toDouble : Decimal → Float
  | .finite negative coefficient exponent =>
    Double.signed negative (nearestMagnitude coefficient exponent)
  | .infinite negative => Double.signed negative Double.infinity
  | .quiet | .signaling => Double.notANumber

end Decimal

end Reckon

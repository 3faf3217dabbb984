import Reckon.Error
import Reckon.Numeric.Decimal
import Reckon.Value

/-!
# Binding — values supplied for variables

Variables are bound to values from outside, which come in more kinds than the calculator knows.
`Supplied.coerce` takes them over: every real number becomes the nearest double, a text stays a
text, and the other kinds are unsupported.  Conversions can leave the range of a double.
-/

namespace Reckon

/-- A value as it is supplied from outside. -/
inductive Supplied where
  | number (x : Float)
  | text (t : CodeText)
  | integer (n : Int)
  | decimal (d : Decimal)
  | fraction (num den : Int)
  | foreign (kind : ForeignKind)
  deriving Repr

namespace Supplied

/-- The double nearest to the fraction `num / den` with `den` other than zero. -/
def nearestFraction? (num den : Int) : Option Float :=
  (Double.nearest? num.natAbs den.natAbs).map
    (Double.signed (decide (num < 0) != (num ≠ 0 && decide (den < 0))))

/-- The value that a supplied value is taken for, or the kind that makes it unsupported. -/
inductive Coerced where
  | value (v : Value)
  | unsupported (kind : ForeignKind)
  deriving DecidableEq, Repr

/-- A number, unless the conversion to it has left the range. -/
def within (cause : Limit) : Option Float → Except Limit Coerced
  | some x => .ok (.value (.number x))
  | none => .error cause

def coerce : Supplied → Except Limit Coerced
  | .number x => .ok (.value (.number x))
  | .text s => .ok (.value (.text s))
  | .integer n => within .integerTooLarge (Double.ofInt? n)
  | .decimal .signaling => .error .signalingNaN
  | .decimal d => .ok (.value (.number d.toDouble))
  | .fraction num den => within .quotientTooLarge (nearestFraction? num den)
  | .foreign kind => .ok (.unsupported kind)

end Supplied

/-- Supplied values by the names of the variables that they are bound to. -/
abbrev Bindings := List (String × Supplied)

namespace Bindings

def find? (b : Bindings) (name : String) : Option Supplied :=
  b.lookup name

/-- The value of a variable; `missing` is the error for a name that is not bound. -/
def resolve (missing : String → Error) (b : Bindings) (name : String) : Except Error Value :=
  match b.find? name with
  | none => .error (missing name)
  | some supplied =>
    match supplied.coerce with
    | .error cause => .error (.limit cause)
    | .ok (.unsupported kind) => .error (.unsupportedVariable name kind)
    | .ok (.value v) => .ok v

end Bindings

end Reckon

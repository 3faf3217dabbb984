import Reckon.Operator
import Reckon.Value

/-!
# Element — what formulas are made of

A formula is a flat sequence of operators, constants and markers; a marker stands for the value of a
variable.  This file says when two sequences agree and how a sequence is written.

* `Element.sequencesAgree` compares element by element; constants are compared as numbers.
  Not-a-number agrees with nothing but itself, so the not-a-numbers of a constant may carry marks, by
  which each of them is known again.
* `Element.render` writes a sequence in infix form, one space between neighbours except at brackets
  and commas.
-/

namespace Reckon

/-- An element of a formula. -/
inductive Element where
  | operator (op : Operator)
  /-- A constant; `marks` belong to its not-a-numbers from left to right, as far as they reach. -/
  | constant (v : Value) (marks : List (Option Nat))
  | marker (name : String)
  deriving DecidableEq, Repr, Inhabited

namespace Element

def leftBracket : Element := .operator .leftBracket

def rightBracket : Element := .operator .rightBracket

def comma : Element := .operator (.binary .comma)

/-- The name of the variable that an element stands for. -/
def marker? : Element → Option String
  | .marker name => some name
  | _ => none

/-- The value of an element that waits for no variable; an operator is a stray among values. -/
def value? : Element → Option Value
  | .operator op => some (.stray (.operator op))
  | .constant v _ => some v
  | .marker _ => none

/-- The marks of the not-a-numbers in an element, one for each of them. -/
def marks : Element → List (Option Nat)
  | .constant v marks => (marks ++ List.replicate v.undefinedCount none).take v.undefinedCount
  | _ => []

/-! ## Agreement -/

/-- Whether not-a-numbers with these marks are known to be the same, one by one. -/
def sameMarks (ms ns : List (Option Nat)) : Bool :=
  ms.all Option.isSome && ms = ns

/-- Equality, except that constants need only agree as values. -/
def agrees : Element → Element → Bool
  | .operator op, .operator op' => op = op'
  | .constant v ms, .constant w ns =>
    v.agrees w && sameMarks (marks (.constant v ms)) (marks (.constant w ns))
  | .marker x, .marker y => x = y
  | _, _ => false

def sequencesAgree : List Element → List Element → Bool
  | [], [] => true
  | e :: es, e' :: es' => e.agrees e' && sequencesAgree es es'
  | _, _ => false

/-! ## Writing -/

/-- The text of an element by itself. -/
def text : Element → String
  | .operator op => op.spelling
  | .constant v _ => v.literal
  | .marker name => "$" ++ name

/-- An element on one line, for messages. -/
def describe : Element → String
  | .operator op => op.describeToken
  | .constant v _ => v.literal
  | .marker name => Stray.describeMarker name

/-- Whether two neighbours are written without a space between them. -/
def isTight : Element → Element → Bool
  | .operator (.bracket .left), _ => true
  | _, .operator (.bracket .right) => true
  | _, .operator (.binary .comma) => true
  | .operator (.function _), .operator (.bracket .left) => true
  | _, _ => false

/-- The text of a sequence behind the element `previous`. -/
def renderAfter (previous : Element) : List Element → String
  | [] => ""
  | e :: es => (if isTight previous e then "" else " ") ++ e.text ++ renderAfter e es

/-- A sequence in infix form. -/
def render : List Element → String
  | [] => ""
  | e :: es => e.text ++ renderAfter e es

theorem marker?_eq_some_iff {e : Element} {name : String} :
    e.marker? = some name ↔ e = .marker name := by
  cases e <;> simp [marker?]

end Element

end Reckon

import Reckon.Binding

/-!
# Json — JSON texts and what is wrong with them

The values of JSON texts, as far as they matter to the calculator: integers are kept exactly, all
other numbers are doubles.  A `Fault` says why a text is no JSON text, and `Failure` adds where.

The fields of an object are in the order of the text, and names may repeat; as bindings, the last
field of a name counts.  Both names and texts may hold halves of characters.
-/

namespace Reckon

/-- A JSON value. -/
inductive Json where
  | null
  | truth (b : Bool)
  | integer (n : Int)
  | number (x : Float)
  | text (t : CodeText)
  | array (members : List Json)
  | object (fields : List (CodeText × Json))
  deriving Repr, Inhabited

namespace Json

/-- Why a text is no JSON text. -/
inductive Fault where
  | byteOrderMark
  | expectedValue
  | expectedName
  | expectedColon
  | expectedComma
  | controlCharacter
  | unterminatedText
  | unknownEscape
  | malformedUnit
  | surplus
  deriving DecidableEq, Repr

/-- The failure to read a text: a fault at a position, or a number out of range. -/
inductive Failure where
  | malformed (fault : Fault) (position : Nat)
  | limit (cause : Limit)
  deriving DecidableEq, Repr

namespace Fault

def message : Fault → String
  | .byteOrderMark => "Unexpected UTF-8 BOM (decode using utf-8-sig)"
  | .expectedValue => "Expecting value"
  | .expectedName => "Expecting property name enclosed in double quotes"
  | .expectedColon => "Expecting ':' delimiter"
  | .expectedComma => "Expecting ',' delimiter"
  | .controlCharacter => "Invalid control character at"
  | .unterminatedText => "Unterminated string starting at"
  | .unknownEscape => "Invalid \\escape"
  | .malformedUnit => "Invalid \\uXXXX escape"
  | .surplus => "Extra data"

/-- A fault at a position of a text, with the line and the column of that position. -/
def describe (fault : Fault) (source : List Char) (position : Nat) : String :=
  let before := source.take position
  let line := before.count '\n' + 1
  let column := (before.reverse.takeWhile (· ≠ '\n')).length + 1
  fault.message ++ ": line " ++ toString line ++ " column " ++ toString column ++
    " (char " ++ toString position ++ ")"

end Fault

/-- A JSON value as a value supplied for a variable. -/
def supplied : Json → Supplied
  | .null => .foreign .nothing
  | .truth _ => .foreign .truth
  | .integer n => .integer n
  | .number x => .number x
  | .text s => .text s
  | .array _ => .foreign .sequence
  | .object _ => .foreign .mapping

/-- The bindings that the fields of an object stand for.  The names of variables have characters only,
so a field with half of a character in its name is bound to none. -/
def bindings (fields : List (CodeText × Json)) : Bindings :=
  (fields.filterMap fun (name, j) => name.unicode?.map fun name => (name, j.supplied)).reverse

end Json

end Reckon

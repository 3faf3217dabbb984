import Reckon.Capacity
import Reckon.Json.Lexeme

/-!
# Reader — JSON values from their lexemes

The reader takes one lexeme after the other.  It keeps a stack of the arrays and objects that are
still open, the innermost in front, and knows what it expects next; a lexeme that does not fit is
reported by what was expected in its place.
-/

namespace Reckon
namespace Json

/-- An array or an object that is still open; what it holds so far is kept last first. -/
inductive Frame where
  | array (members : List Json)
  /-- The value of the field `name` comes next. -/
  | object (fields : List (CodeText × Json)) (name : CodeText)

/-- What comes next. -/
inductive Expectation where
  | value
  /-- The first member of an array, or its end. -/
  | firstMember
  /-- The first name of an object, or its end. -/
  | firstName
  | name (fields : List (CodeText × Json))
  | colon (fields : List (CodeText × Json)) (name : CodeText)
  /-- A value has been read: its array or object goes on or ends, or the text ends. -/
  | continuation (value : Json)

/-- A reader in the middle of a text. -/
structure Reader where
  expected : Expectation
  frames : List Frame

namespace Reader

variable [Capacity]

/-- A reader before the first lexeme. -/
def start : Reader := ⟨.value, []⟩

def expect (expected : Expectation) (frames : List Frame) : Except Failure Reader :=
  .ok ⟨expected, frames⟩

/-- The most digits that an integer may have. -/
def largestDigitCount : Nat := 4300

/-- The integer with the given digits. -/
def integerValue (negative : Bool) (digits : List Nat) : Except Failure Json :=
  if largestDigitCount < digits.length then .error (.limit (.integerTooLong digits.length))
  else
    let n : Int := Text.ofDigits 10 digits
    .ok (.integer (if negative then -n else n))

/-- Opens an array or an object inside of `frames`. -/
def openContainer (container : Container) (expected : Expectation) (frames : List Frame) :
    Except Failure Reader :=
  if Capacity.largestDepth ≤ frames.length then .error (.limit (.nestingTooDeep container))
  else expect expected frames

/-- Takes a lexeme where a value is expected. -/
def takeValue (frames : List Frame) (p : PlacedLexeme) : Except Failure Reader :=
  match p.lexeme with
  | .delimiter .beginArray => openContainer .array .firstMember frames
  | .delimiter .beginObject => openContainer .object .firstName frames
  | .text s => expect (.continuation (.text s)) frames
  | .faultyText fault position => .error (.malformed fault position)
  | .integer negative digits => do
    expect (.continuation (← integerValue negative digits)) frames
  | .number x => expect (.continuation (.number x)) frames
  | .word v => expect (.continuation v) frames
  | _ => .error (.malformed .expectedValue p.position)

/-- Takes a lexeme where the name of a field is expected. -/
def takeName (fields : List (CodeText × Json)) (frames : List Frame) (p : PlacedLexeme) :
    Except Failure Reader :=
  match p.lexeme with
  | .text s => expect (.colon fields s) frames
  | .faultyText fault position => .error (.malformed fault position)
  | _ => .error (.malformed .expectedName p.position)

/-- Takes a lexeme behind a value. -/
def takeContinuation (v : Json) (frames : List Frame) (p : PlacedLexeme) : Except Failure Reader :=
  match frames, p.lexeme with
  | [], _ => .error (.malformed .surplus p.position)
  | .array members :: outer, .delimiter .comma => expect .value (.array (v :: members) :: outer)
  | .array members :: outer, .delimiter .endArray =>
    expect (.continuation (.array (v :: members).reverse)) outer
  | .object fields name :: outer, .delimiter .comma => expect (.name ((name, v) :: fields)) outer
  | .object fields name :: outer, .delimiter .endObject =>
    expect (.continuation (.object ((name, v) :: fields).reverse)) outer
  | _, _ => .error (.malformed .expectedComma p.position)

/-- Takes a lexeme. -/
def take (r : Reader) (p : PlacedLexeme) : Except Failure Reader :=
  match r.expected, p.lexeme with
  | .value, _ => takeValue r.frames p
  | .firstMember, .delimiter .endArray => expect (.continuation (.array [])) r.frames
  | .firstMember, _ => takeValue (.array [] :: r.frames) p
  | .firstName, .delimiter .endObject => expect (.continuation (.object [])) r.frames
  | .firstName, _ => takeName [] r.frames p
  | .name fields, _ => takeName fields r.frames p
  | .colon fields name, .delimiter .colon => expect .value (.object fields name :: r.frames)
  | .colon .., _ => .error (.malformed .expectedColon p.position)
  | .continuation v, _ => takeContinuation v r.frames p

/-- The value at the end of a text of the given length. -/
def conclude (length : Nat) (r : Reader) : Except Failure Json :=
  match r.expected, r.frames with
  | .continuation v, [] => .ok v
  | .continuation _, _ => .error (.malformed .expectedComma length)
  | .value, _ | .firstMember, _ => .error (.malformed .expectedValue length)
  | .firstName, _ | .name _, _ => .error (.malformed .expectedName length)
  | .colon .., _ => .error (.malformed .expectedColon length)

end Reader

/-- The character that must not stand in front of a text. -/
def byteOrderMark : Char := '\uFEFF'

/-- The value of a JSON text. -/
def read [Capacity] (source : List Char) : Except Failure Json :=
  if source.head? = some byteOrderMark then .error (.malformed .byteOrderMark 0)
  else do
    let r ← (lexemes source).foldlM Reader.take Reader.start
    r.conclude source.length

end Json
end Reckon

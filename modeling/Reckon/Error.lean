import Reckon.Operator
import Reckon.Text.Quoted

/-!
# Error — what can go wrong, and how it is told

An `Error` names its cause; `Error.message` is the one place where causes are put into words.

Most errors are reported to the user as the outcome of a calculation.  A `Limit` is not: it says
that a size or a conversion leaves the range of what can be represented, or that an operator is
executed where it cannot be, and it ends the program.  `Error.isReported` tells the two apart.
-/

namespace Reckon

/-- Why a literal has no end. -/
inductive LexicalFault where
  | unterminatedEscape
  | unterminatedText
  deriving DecidableEq, Repr

/-- What is wrong with the operands of an operator, where its type does not say it all. -/
inductive Mismatch where
  | fractionalRepeat
  | outsideDomain
  | mixedMembers
  | notTwoNumbers
  deriving DecidableEq, Repr

/-- A kind of supplied values that has no place among the values of the calculator. -/
inductive ForeignKind where
  | truth
  | nothing
  | sequence
  | mapping
  | complex
  | bytes
  deriving DecidableEq, Repr

/-- What can be nested in a JSON text. -/
inductive Container where
  | array
  | object
  deriving DecidableEq, Repr

/-- What goes beyond the program itself: a size or a conversion out of range, or an operator that is
executed where it cannot be. -/
inductive Limit where
  | integerTooLarge
  | quotientTooLarge
  | repeatCountTooLarge
  | repeatTooLong
  | signalingNaN
  | emptyName
  | malformedDecimal (text : String)
  | malformedInteger (text : String) (radix : Nat)
  | integerTooLong (digits : Nat)
  | outOfMemory
  | nestingTooDeep (container : Container)
  /-- A text with halves of characters is to be written; the first of them stand side by side behind
  so many characters. -/
  | unencodable (halves : List CodePoint) (position : Nat)
  /-- No operator is there to be executed. -/
  | operatorMissing
  /-- A bracket is to be executed. -/
  | bracketExecuted
  /-- An operator is to be executed on a wrong number of operands. -/
  | operandCount (expected given : Nat)
  /-- An operator is to be deferred without all of its operands. -/
  | operandMissing
  deriving DecidableEq, Repr

inductive Error where
  | unknownVariable (name : String)
  | unprovidedVariable (name : String)
  | unsupportedVariable (name : String) (kind : ForeignKind)
  | unsupportedToken (text : String) (position : Int)
  | lexical (fault : LexicalFault) (position : Nat)
  | divisionByZero (op : Operator)
  | invalidArguments (op : Operator) (mismatch : Option Mismatch)
  | insufficientOperands (op : Operator)
  | unexecutable (op : Operator)
  | unmatchedBracket (op : Operator)
  | noResult (remaining : Nat)
  | limit (cause : Limit)
  deriving DecidableEq, Repr

/-! ## Wording -/

namespace LexicalFault

def message : LexicalFault → String
  | .unterminatedEscape => "unterminated escape sequence"
  | .unterminatedText => "unterminated string literal"

end LexicalFault

namespace Mismatch

def message : Mismatch → String
  | .fractionalRepeat => "repeat count must be a whole number"
  | .outsideDomain => "math domain error"
  | .mixedMembers => "elements must be all numbers or all strings"
  | .notTwoNumbers => "expects exactly two numbers"

end Mismatch

namespace ForeignKind

def name : ForeignKind → String
  | .truth => "bool"
  | .nothing => "NoneType"
  | .sequence => "list"
  | .mapping => "dict"
  | .complex => "complex"
  | .bytes => "bytes"

end ForeignKind

namespace Container

def name : Container → String
  | .array => "array"
  | .object => "object"

end Container

namespace Limit

/-- The most characters that are shown of the text of a malformed integer. -/
def quotedWidth : Nat := 200

def message : Limit → String
  | .integerTooLarge => "int too large to convert to float"
  | .quotientTooLarge => "integer division result too large for a float"
  | .repeatCountTooLarge => "cannot fit 'int' into an index-sized integer"
  | .repeatTooLong => "repeated string is too long"
  | .signalingNaN => "cannot convert signaling NaN to float"
  | .emptyName => "variable name must not be empty"
  | .malformedDecimal text => "could not convert string to float: " ++ Text.quoted text
  | .malformedInteger text radix =>
    "invalid literal for int() with base " ++ toString radix ++ ": " ++
      String.ofList ((Text.Quoted.encode (text : CodeText).points).take quotedWidth)
  | .integerTooLong digits =>
    "Exceeds the limit (4300 digits) for integer string conversion: value has " ++
      toString digits ++ " digits; use sys.set_int_max_str_digits() to increase the limit"
  | .outOfMemory => ""
  | .nestingTooDeep container =>
    "maximum recursion depth exceeded while decoding a JSON " ++ container.name ++
      " from a unicode string"
  | .unencodable [half] position =>
    "'utf-8' codec can't encode character '" ++ String.ofList (Text.Quoted.escapeCode half) ++
      "' in position " ++ toString position ++ ": surrogates not allowed"
  | .unencodable halves position =>
    "'utf-8' codec can't encode characters in position " ++ toString position ++ "-" ++
      toString (position + halves.length - 1) ++ ": surrogates not allowed"
  | .operatorMissing => "'NoneType' object has no attribute 'arity'"
  | .bracketExecuted => "'NoneType' object is not callable"
  | .operandCount expected given =>
    if given < expected then
      "not enough values to unpack (expected " ++ toString expected ++ ", got " ++
        toString given ++ ")"
    else "too many values to unpack (expected " ++ toString expected ++ ")"
  | .operandMissing => "list index out of range"

end Limit

namespace Error

def message : Error → String
  | .unknownVariable name => "calc: unknown variable: " ++ name
  | .unprovidedVariable name => "calc: unprovided variable: " ++ name
  | .unsupportedVariable name kind =>
    "calc: unsupported variable type, name: " ++ name ++ ", type: " ++ kind.name
  | .unsupportedToken text position =>
    "calc: unsupported token: '" ++ text ++ "' at " ++ toString position
  | .lexical fault position => "calc: " ++ fault.message ++ " at " ++ toString position
  | .divisionByZero _ => "calc/operator: division by zero"
  | .invalidArguments op none =>
    "calc/operator: invalid arguments for code: " ++ op.spelling
  | .invalidArguments op (some mismatch) =>
    "calc/operator: invalid arguments for code: " ++ op.spelling ++ " (" ++ mismatch.message ++ ")"
  | .insufficientOperands op => "calc: no enough params for operator: " ++ op.spelling
  | .unexecutable op => "calc: unexecutable operator: " ++ op.spelling
  | .unmatchedBracket op =>
    "calc: can not find matching parenthesis for '" ++ op.spelling ++ "'"
  | .noResult remaining =>
    "calc: unable to parse expressions (" ++ toString remaining ++ " values left)"
  | .limit cause => cause.message

/-- Whether an error is an outcome of the calculation rather than a limit of the program. -/
def isReported : Error → Bool
  | .limit _ => false
  | _ => true

end Error

end Reckon

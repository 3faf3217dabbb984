/-!
# Operator — the operators of the language

There are three classes of operators, and the class fixes how many operands an operator takes.

* A `Binary` operator stands between its two operands.
* A `Function` stands in front of its one operand, which may be a list.
* A `Bracket` takes none; it cannot be executed, and it keeps the operators on either side apart.

`Operator.lookup?` finds an operator by its spelling, whatever the case of the letters.
-/

namespace Reckon

/-- The operators between two operands; the comma builds lists. -/
inductive Binary where
  | add
  | sub
  | mul
  | div
  | rem
  | comma
  deriving DecidableEq, Repr

inductive Bracket where
  | left
  | right
  deriving DecidableEq, Repr

/-- The functions; `opp` is the opposite number and also serves as the minus in front of an operand,
`recip` is the reciprocal. -/
inductive Function where
  | sin
  | cos
  | tan
  | abs
  | opp
  | recip
  | sum
  | max
  | min
  | pow
  deriving DecidableEq, Repr

/-- An operator of any class. -/
inductive Operator where
  | binary (op : Binary)
  | bracket (side : Bracket)
  | function (f : Function)
  deriving DecidableEq, Repr

/-! ## Spelling and precedence by class -/

namespace Binary

def spelling : Binary → String
  | .add => "+"
  | .sub => "-"
  | .mul => "*"
  | .div => "/"
  | .rem => "%"
  | .comma => ","

/-- Higher binds tighter. -/
def precedence : Binary → Int
  | .add | .sub => 1
  | .mul | .div | .rem => 2
  | .comma => -1

end Binary

namespace Bracket

def spelling : Bracket → String
  | .left => "("
  | .right => ")"

end Bracket

namespace Function

def spelling : Function → String
  | .sin => "sin"
  | .cos => "cos"
  | .tan => "tan"
  | .abs => "abs"
  | .opp => "opp"
  | .recip => "rec"
  | .sum => "sum"
  | .max => "max"
  | .min => "min"
  | .pow => "pow"

/-- A minus in front of an operand binds like a product; a function waits for its bracket. -/
def precedence : Function → Int
  | .opp => 2
  | _ => 0

end Function

/-! ## Operators of any class -/

namespace Operator

/-- The minus sign, which the reader may turn into `opp`. -/
def minus : Operator := .binary .sub

/-- The minus in front of an operand. -/
def opposite : Operator := .function .opp

def leftBracket : Operator := .bracket .left

def rightBracket : Operator := .bracket .right

def spelling : Operator → String
  | .binary op => op.spelling
  | .bracket side => side.spelling
  | .function f => f.spelling

def precedence : Operator → Int
  | .binary op => op.precedence
  | .bracket _ => -1
  | .function f => f.precedence

/-- The number of operands. -/
def arity : Operator → Nat
  | .binary _ => 2
  | .bracket _ => 0
  | .function _ => 1

def isBracket : Operator → Bool
  | .bracket _ => true
  | _ => false

def isFunction : Operator → Bool
  | .function _ => true
  | _ => false

/-- Everything but a bracket can be executed. -/
def executable (op : Operator) : Bool :=
  !op.isBracket

/-- The name of the class of an operator. -/
def className : Operator → String
  | .binary _ => "general"
  | .bracket _ => "bracket"
  | .function _ => "function"

/-- An operator on one line, for messages. -/
def describe (op : Operator) : String :=
  "Operator('" ++ op.spelling ++ "')"

/-- The spelling of an operator on one line, for messages. -/
def describeToken (op : Operator) : String :=
  "Tok('" ++ op.spelling ++ "')"

/-- All operators. -/
def all : List Operator :=
  [.binary .add, .binary .sub, .binary .mul, .binary .div, .binary .rem, .binary .comma,
    .bracket .left, .bracket .right,
    .function .sin, .function .cos, .function .tan, .function .abs, .function .opp,
    .function .recip, .function .sum, .function .max, .function .min, .function .pow]

/--
The operator with a spelling, in any letter case.  Lowering ASCII letters is enough: the only letter
elsewhere whose lower case is an ASCII letter is the Kelvin sign, and no spelling holds a `k`.
-/
def lookup? (s : String) : Option Operator :=
  all.find? fun op => op.spelling.toList == s.toList.map Char.toLower

theorem mem_all (op : Operator) : op ∈ all := by
  rcases op with (_ | _ | _ | _ | _ | _) | (_ | _) | (_ | _ | _ | _ | _ | _ | _ | _ | _ | _) <;>
    decide

theorem lookup?_spelling (op : Operator) : lookup? op.spelling = some op := by
  rcases op with (_ | _ | _ | _ | _ | _) | (_ | _) | (_ | _ | _ | _ | _ | _ | _ | _ | _ | _) <;>
    decide

end Operator

end Reckon

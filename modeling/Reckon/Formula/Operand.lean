import Reckon.Formula.Element

/-!
# Operand — values and the operations that wait for variables

While a formula is compiled, the value of an operand may depend on variables.  Such an operand is
symbolic: a marker, a deferred operation, or a group, which is a list with symbolic members that
waits for a function to take it.  All other operands are constants.

Every operand can be written as a sequence that computes it.  The sequence is kept flat; what it
needs of its structure is the precedence of the operator that is executed last, so that brackets
are put where they are needed and nowhere else.
-/

namespace Reckon

/-- An operand of a formula that is being compiled. -/
inductive Operand where
  /-- A constant, a marker, or an operator that stands for itself. -/
  | atom (e : Element)
  /-- An operation that waits for variables; `origin` is the one variable that it is derived from,
  if there is just one. -/
  | deferred (sequence : List Element) (origin : Option String) (precedence : Int)
  | group (members : List Operand)
  deriving Repr, Inhabited

namespace Operand

/-! ## Kinds of operands -/

/-- A value as an operand. -/
abbrev value (v : Value) : Operand := .atom (.constant v [])

/-- The marker of a variable as an operand. -/
@[match_pattern] abbrev marker (name : String) : Operand := .atom (.marker name)

/-- A value with marks for its not-a-numbers as an operand. -/
def marked (v : Value) (marks : List (Option Nat)) : Operand :=
  .atom (.constant v (marks.take v.undefinedCount))

/-- What a member of a list is as an operand by itself. -/
def ofMember (v : Value) (marks : List (Option Nat)) : Operand :=
  match v with
  | .stray (.operator op) => .atom (.operator op)
  | .stray (.marker name) => .marker name
  | v => marked v marks

/-- The members of a list, each with its share of the marks. -/
def ofMembers : List Value → (marks : List (Option Nat)) → List Operand
  | [], _ => []
  | v :: vs, marks => ofMember v marks :: ofMembers vs (marks.drop v.undefinedCount)

/-- The value of an operand that has one already. -/
def value? : Operand → Option Value
  | .atom e => e.value?
  | _ => none

/-- The marks of the not-a-numbers in an operand that has a value. -/
def marks : Operand → List (Option Nat)
  | .atom e => e.marks
  | _ => []

/-- Whether an operand has no value yet; a group has none, whatever its members are. -/
def isSymbolic (a : Operand) : Bool :=
  a.value?.isNone

/-- Whether an operand is symbolic and no list; its value is still unknown, but it is one operand. -/
def isScalarSymbol : Operand → Bool
  | .marker _ | .deferred .. => true
  | _ => false

def isOne (a : Operand) : Bool :=
  match a.value? with
  | some (.number x) => x == 1
  | _ => false

/-! ## Sequences -/

/-- The precedence of an operand that needs no brackets anywhere. -/
def atomicPrecedence : Int := 256

/-- The precedence of the operator that an operand's sequence executes last. -/
def precedence : Operand → Int
  | .deferred _ _ precedence => precedence
  | .group _ => Binary.comma.precedence
  | _ => atomicPrecedence

/-- A sequence in brackets, if `wrap` is set. -/
def bracketed (wrap : Bool) (es : List Element) : List Element :=
  if wrap then Element.leftBracket :: es ++ [Element.rightBracket] else es

mutual

/-- The sequence that computes an operand. -/
def sequence : Operand → List Element
  | .atom e => [e]
  | .deferred sequence _ _ => sequence
  | .group members => joinMembers members

/-- The members of a list, separated by commas; a member that is a list itself stands in brackets. -/
def joinMembers : List Operand → List Element
  | [] => []
  | [m] => m.member
  | m :: ms => m.member ++ Element.comma :: joinMembers ms

/-- The sequence of an operand between commas. -/
def member : Operand → List Element
  | .atom e => [e]
  | .deferred sequence _ precedence => bracketed (precedence ≤ Binary.comma.precedence) sequence
  | .group members => bracketed true (joinMembers members)

end

/-- The sequence of an operand, in brackets if `wrap` is set. -/
def operandSequence (wrap : Bool) (a : Operand) : List Element :=
  bracketed wrap a.sequence

/--
An operation on two operands.  Operators of equal precedence are executed from left to right, so the
right operand needs brackets in more cases than the left one.
-/
def binarySequence (a : Operand) (op : Operator) (b : Operand) (precedence : Int) : List Element :=
  operandSequence (a.precedence < precedence) a ++ .operator op ::
    operandSequence (b.precedence ≤ precedence) b

/-- An operator called with the operand of a sequence. -/
def callSequence (op : Operator) (argument : List Element) : List Element :=
  .operator op :: bracketed true argument

@[simp] theorem value?_marked (v : Value) (marks : List (Option Nat)) :
    (marked v marks).value? = some v := rfl

theorem length_ofMembers (vs : List Value) (marks : List (Option Nat)) :
    (ofMembers vs marks).length = vs.length := by
  induction vs generalizing marks with
  | nil => rfl
  | cons v vs ih => simp [ofMembers, ih]

theorem member_eq (a : Operand) :
    a.member = operandSequence (a.precedence ≤ Binary.comma.precedence) a := by
  cases a <;> rfl

/-! ## Origins -/

/-- What operands are derived from. -/
inductive Provenance where
  | constant
  | single (name : String)
  | mixed
  deriving DecidableEq, Repr

namespace Provenance

/-- The provenance of two operands together. -/
def merge : Provenance → Provenance → Provenance
  | .constant, p => p
  | p, .constant => p
  | .single x, .single y => if x = y then .single x else .mixed
  | _, _ => .mixed

/-- The variable of a provenance, if there is just one. -/
def origin? : Provenance → Option String
  | .single name => some name
  | _ => none

/-- The provenance of a symbolic operand with a known or unknown origin. -/
def ofOrigin : Option String → Provenance
  | some name => .single name
  | none => .mixed

theorem merge_constant (p : Provenance) : p.merge .constant = p := by
  cases p <;> rfl

end Provenance

mutual

def provenance : Operand → Provenance
  | .marker name => .single name
  | .atom _ => .constant
  | .deferred _ origin _ => .ofOrigin origin
  | .group members => .ofOrigin (provenanceOf members).origin?

/-- The provenance of operands together. -/
def provenanceOf : List Operand → Provenance
  | [] => .constant
  | m :: ms => m.provenance.merge (provenanceOf ms)

end

/-- The one variable that every symbolic operand is derived from, if there is just one. -/
def commonOrigin (operands : List Operand) : Option String :=
  (provenanceOf operands).origin?

/-- The one variable that an operand is derived from, if there is just one. -/
def origin? (a : Operand) : Option String :=
  a.provenance.origin?

/-! ## Groups -/

/-- The members that an operand contributes to a group: those of a list, else the operand itself. -/
def groupMembers : Operand → List Operand
  | .group members => members
  | a =>
    match a.value? with
    | some (.list vs) => ofMembers vs a.marks
    | _ => [a]

/-- The list operator on operands of which at least one is symbolic. -/
def makeGroup (a b : Operand) : Operand :=
  .group (a.groupMembers ++ b.groupMembers)

/-- The members of a group that have values. -/
def values (members : List Operand) : List Value :=
  members.filterMap value?

/-- The members of a group that have no value. -/
def symbols (members : List Operand) : List Operand :=
  members.filter isSymbolic

/-! ## Sameness -/

/-- Whether two operations are derived from the same variable and agree in their sequences. -/
def sameAs : Operand → Operand → Bool
  | .deferred es origin _, .deferred es' origin' _ =>
    origin = origin' && Element.sequencesAgree es es'
  | _, _ => false

/-- Whether two operands are the same symbol, so that they have the same value. -/
def sameSymbol : Operand → Operand → Bool
  | .marker x, .marker y => x = y
  | a, b => a.sameAs b

/-! ## Texts -/

/-- An operand on one line, for messages. -/
def describe : Operand → String
  | .atom e => e.describe
  | .deferred sequence _ _ => "Exp(" ++ Text.quoted (Element.render sequence) ++ ")"
  | .group members => "ExpGroup(" ++ Text.quoted (Element.render (joinMembers members)) ++ ")"

end Operand

end Reckon

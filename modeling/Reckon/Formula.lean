import Reckon.Formula.Deferral

/-!
# Formula — expressions compiled once and replayed with bindings

`Formula.compile` evaluates a source text with its variables left open; what is left of it is the
sequence of a formula.  `Formula.replay` feeds this sequence to a machine that works on values, with
every marker resolved as it comes along.

`Formula.listing` shows a formula with one line for each element.
-/

namespace Reckon

/-- A compiled expression. -/
structure Formula where
  sequence : List Element
  source : String
  deriving DecidableEq, Repr

namespace Formula

/-! ## Compiling and replaying -/

def compile [Capacity] (source : String) : Except Error Formula := do
  let result ← Evaluation.ofReading Semantics.symbolic (Token.lex source)
  return { sequence := result.sequence, source }

/-- Feeds an element to a machine. -/
def feed (sem : Semantics Value) : Element → Machine Value Unit
  | .operator op => Machine.apply sem.toReducer op
  | .constant v _ => Machine.pushOperand v
  | .marker name =>
    match sem.resolve name with
    | .ok v => Machine.pushOperand v
    | .error e => throw e

/-- Feeds a sequence to a machine and finishes. -/
def runSequence (sem : Semantics Value) (es : List Element) : Machine Value Value := do
  es.forM (feed sem)
  Machine.finish sem.toReducer

/-- The value of a formula. -/
def replay [Capacity] (f : Formula) (b : Bindings) : Except Error Value := do
  let sem := Semantics.direct .unprovidedVariable b
  let (v, _) ← (runSequence sem f.sequence).run .empty
  return v

/-! ## Views -/

/-- The names of the variables in order of their first appearance. -/
def variableNames (f : Formula) : List String :=
  (VariableTable.ofList (f.sequence.filterMap Element.marker?)).names

def isConstant (f : Formula) : Bool :=
  f.variableNames.isEmpty

def size (f : Formula) : Nat :=
  f.sequence.length

/-- Whether two formulas that are compiled apart agree, element by element.  A not-a-number without
a mark agrees with nothing; so `f.agrees f` does not hold if `f` has such a constant, although a
formula that is compared with itself, as one and the same object, is always equal to itself. -/
def agrees (f g : Formula) : Bool :=
  Element.sequencesAgree f.sequence g.sequence

def render (f : Formula) : String :=
  Element.render f.sequence

/-- A formula on one line, for messages. -/
def describe (f : Formula) : String :=
  "Formula(" ++ Text.quoted f.render ++ ")"

/-! ## Listing -/

/-- A number with at least four digits. -/
def lineNumber (n : Nat) : String :=
  String.ofList (NumberFormat.padded 4 n)

/-- The line of the element at a place. -/
def elementLine (place : Nat) (e : Element) : String :=
  let entry :=
    match e with
    | .operator op => "OP    " ++ op.spelling
    | .marker _ => "VAR   " ++ e.text
    | .constant .. => "CONST " ++ e.text
  lineNumber place ++ ": " ++ entry

/-- The line of the variable at a place. -/
def variableLine (place : Nat) (name : String) : String :=
  "[" ++ toString place ++ "] " ++ name

/-- The elements of a formula line by line, and its variables behind them. -/
def listing (f : Formula) : List String :=
  f.sequence.mapIdx elementLine ++ "-- variables --" :: f.variableNames.mapIdx variableLine

theorem mem_variableNames {f : Formula} {name : String} :
    name ∈ f.variableNames ↔ .marker name ∈ f.sequence := by
  rw [variableNames, VariableTable.mem_names_ofList, List.mem_filterMap]
  constructor
  · rintro ⟨e, he, hname⟩
    cases e <;> simp [Element.marker?] at hname
    exact hname ▸ he
  · exact fun h => ⟨_, h, rfl⟩

end Formula

end Reckon

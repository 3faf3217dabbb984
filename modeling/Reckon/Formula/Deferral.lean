import Reckon.Evaluation
import Reckon.Formula.Operand
import Reckon.Formula.VariableTable

/-!
# Deferral — operators on symbolic operands

An operator whose operands all have values is executed at once, so that whatever does not depend on
a variable is folded while the formula is compiled.  All other operators are deferred.

* The comma makes a group.
* The sum of a symbol with itself is a product with two, and the difference is zero; a product with
  one is the other factor, unless that is a list.
* In a group that is taken by `sum`, the numbers in front of the first symbolic member are added up;
  in one that is taken by `max` or `min`, every run of neighbours that have values is replaced by
  its extreme.  Neither moves a member across a symbolic one.

`Deferral.reducer` serves a machine, which gives every operator as many operands as it takes;
`Deferral.execute` takes any number of them.
-/

namespace Reckon
namespace Deferral

open Operand

variable [Capacity]

/-! ## Binary operators -/

/-- An operation on two operands that is left as it is. -/
def combine (op : Binary) (a b : Operand) : Operand :=
  .deferred (binarySequence a (.binary op) b op.precedence) (commonOrigin [a, b]) op.precedence

/-- A binary operator on operands that are not executed. -/
def deferBinary : Binary → Operand → Operand → Operand
  | .comma, a, b => makeGroup a b
  | .add, a, b => if a.sameSymbol b then combine .mul a (.value (.number 2)) else combine .add a b
  | .sub, a, b => if a.sameSymbol b then .value (.number 0) else combine .sub a b
  | .mul, a, b =>
    if a.isScalarSymbol && b.isOne then a
    else if b.isScalarSymbol && a.isOne then b
    else combine .mul a b
  | op, a, b => combine op a b

def binary (op : Binary) (a b : Operand) : Except Error Operand :=
  match a.value?, b.value? with
  | some v, some w => do
    let result ← op.execute v w
    return marked result (if op = .comma then a.marks ++ b.marks else [])
  | _, _ => .ok (deferBinary op a b)

/-! ## Folding of members -/

/-- The members of a sum with the numbers in front of the first symbolic member added up. -/
def foldLeading (members : List Operand) : Except Error (List Operand) :=
  let run := members.takeWhile fun m => !m.isSymbolic
  if 2 ≤ run.length ∧ (values run).all Value.isNumber then do
    return .value (← Function.sum.execute (.list (values run))) :: members.drop run.length
  else .ok members

/-- Whether a value is a number other than not-a-number. -/
def isOrdered : Value → Bool
  | .number x => !x.isNaN
  | _ => false

/-- The members of a run of neighbours that have values, which has an extreme if all are texts or
all are numbers that can be compared. -/
def foldRun (f : Function) (run : List Operand) : Except Error (List Operand) :=
  if 2 ≤ run.length ∧ ((values run).all Value.isText ∨ (values run).all isOrdered) then do
    return [.value (← f.execute (.list (values run)))]
  else .ok run

/-- The members of a maximum or a minimum with every run folded; `run` is the run in front of them. -/
def foldRuns (f : Function) (run : List Operand) : List Operand → Except Error (List Operand)
  | [] => foldRun f run
  | m :: ms =>
    if m.isSymbolic then do
      let folded ← foldRun f run
      let others ← foldRuns f [] ms
      return folded ++ m :: others
    else foldRuns f (run ++ [m]) ms

/-- The members of a group that an operator takes. -/
def foldMembers (op : Operator) (members : List Operand) : Except Error (List Operand) :=
  match op with
  | .function .sum => foldLeading members
  | .function .max => foldRuns .max [] members
  | .function .min => foldRuns .min [] members
  | _ => .ok members

/-! ## Functions -/

/-- An operator called with members that are written as `argument`. -/
def call (op : Operator) (argument : List Element) (members : List Operand) : Operand :=
  .deferred (callSequence op argument) (commonOrigin members) atomicPrecedence

/-- An operator called with one operand, which is not executed. -/
def deferCall (op : Operator) : Operand → Except Error Operand
  | .group members => do
    let members ← foldMembers op members
    return call op (joinMembers members) members
  | a => .ok (call op a.sequence [a])

/-- The mark of the power that is not-a-number although base and exponent are numbers; there is one
of it only. -/
def undefinedPower : Nat := 0

/-- The marks of the result of a function on a value with the given marks.  A sum of one number is
that number, and an extreme that is not-a-number is the first member. -/
def resultMarks : Function → Value → (marks : List (Option Nat)) → List (Option Nat)
  | .sum, .number _, marks | .sum, .list [_], marks => marks
  | .max, _, marks | .min, _, marks => marks
  | .pow, .list [.number x, .number y], _ =>
    if x.isNaN || y.isNaN then [] else [some undefinedPower]
  | _, _, _ => []

def function (f : Function) (a : Operand) : Except Error Operand :=
  match a.value? with
  | some v => do
    let w ← f.execute v
    return marked w (resultMarks f v a.marks)
  | none => deferCall (.function f) a

/-- The reducer that executes operators on values and defers all others. -/
def reducer : Reducer Operand where
  binary := binary
  function := function

/-! ## Any number of operands -/

/-- Defers an operator, which takes its operands from the front; those behind them are left out. -/
def defer : Operator → List Operand → Except Error Operand
  | .binary op, a :: b :: _ => .ok (deferBinary op a b)
  | .function f, a :: _ => deferCall (.function f) a
  | .bracket side, a :: _ => deferCall (.bracket side) a
  | _, _ => .error (.limit .operandMissing)

/-- An operator on any number of operands: one symbolic operand among them is enough to defer it. -/
def execute (op : Operator) (operands : List Operand) : Except Error Operand :=
  if operands.any isSymbolic then defer op operands else reducer.execute op operands

theorem execute_binary (op : Binary) (a b : Operand) :
    execute (.binary op) [a, b] = binary op a b := by
  cases ha : a.value? <;> cases hb : b.value? <;>
    simp [execute, defer, reducer, Reducer.execute, binary, isSymbolic, ha, hb]

theorem execute_function (f : Function) (a : Operand) :
    execute (.function f) [a] = function f a := by
  cases ha : a.value? <;>
    simp [execute, defer, reducer, Reducer.execute, function, isSymbolic, ha]

end Deferral

/-- Evaluation on symbolic operands: every variable is left open, if it has a name. -/
def Semantics.symbolic [Capacity] : Semantics Operand where
  toReducer := Deferral.reducer
  number x := .value (.number x)
  text s := .value (.text s)
  resolve name := do
    VariableTable.requireName name
    return .marker name

namespace Semantics

variable [Capacity]

/-- A variable with a name is left open. -/
theorem resolve_symbolic {name : String} (h : name ≠ "") :
    symbolic.resolve name = .ok (.marker name) := by
  change (VariableTable.requireName name >>= fun _ => .ok (Operand.marker name)) = _
  rw [VariableTable.requireName_of_ne h]
  rfl

theorem cases_of_resolve_symbolic (name : String) :
    symbolic.resolve name = .ok (.marker name) ∨
      name = "" ∧ symbolic.resolve name = .error (.limit .emptyName) := by
  by_cases h : name = ""
  · subst h
    exact Or.inr ⟨rfl, rfl⟩
  · exact Or.inl (resolve_symbolic h)

/-- What a compilation puts in the place of a variable is its marker. -/
theorem eq_of_resolve_symbolic {name : String} {a : Operand} (h : symbolic.resolve name = .ok a) :
    a = .marker name := by
  rcases cases_of_resolve_symbolic name with hmarker | ⟨-, herror⟩
  · rw [hmarker] at h
    exact (Except.ok.inj h).symm
  · rw [herror] at h
    cases h

end Semantics

end Reckon

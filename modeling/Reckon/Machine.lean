import Reckon.Error
import Reckon.Stack

/-!
# Machine — reduction on two stacks

A machine holds a stack of operands and a stack of operators that wait for their operands.  What a
reduction makes of its operands is left to a `Reducer`, so the same machine runs on values, where
operators are executed, and on symbolic operands, where they are deferred.

* `pushOperand` — an operand arrives;
* `pushOperator` — a binary operator arrives: operators that bind at least as tight are reduced;
* `pushWaiting` — a function or a minus in front of an operand arrives and waits;
* `openBracket`, `closeBracket` — a bracket keeps the operators on either side apart, and closing it
  calls the function in front of it;
* `drain`, `result`, `finish` — the end of the input.

A transition that fails leaves the machine in the state that it has reached: the operator that
failed is gone, and so are its operands, unless there were too few of them.
-/

namespace Reckon

/-- What operators do to their operands. -/
structure Reducer (α : Type) where
  binary : Binary → α → α → Except Error α
  function : Function → α → Except Error α

/-- Executes an operator on operands of which there must be as many as it takes. -/
def Reducer.execute {α : Type} (r : Reducer α) : Operator → List α → Except Error α
  | .binary op, [x, y] => r.binary op x y
  | .function f, [x] => r.function f x
  | .bracket _, _ => .error (.limit .bracketExecuted)
  | op, operands => .error (.limit (.operandCount op.arity operands.length))

namespace Machine

/-- The two stacks of a machine. -/
structure State (α : Type) where
  operands : Stack α
  operators : Stack Operator
  deriving DecidableEq, Repr

end Machine

/-- A transition of a machine with operands in `α`; an error comes with the state that is left. -/
abbrev Machine (α β : Type) := EStateM Error (Machine.State α) β

namespace Machine

variable {α : Type}

/-- The machine before any input. -/
def State.empty : State α := ⟨[], []⟩

/-! ## Reduction -/

/-- Executes an operator on the topmost operands. -/
def execute (r : Reducer α) : Operator → Stack α → EStateM.Result Error (Stack α) Unit
  | .binary op, y :: x :: below =>
    match r.binary op x y with
    | .ok v => .ok () (v :: below)
    | .error e => .error e below
  | .function f, x :: below =>
    match r.function f x with
    | .ok v => .ok () (v :: below)
    | .error e => .error e below
  | .bracket _, operands => .error (.limit .bracketExecuted) operands
  | op, operands => .error (.insufficientOperands op) operands

/-- Executes operators from the top down as long as they satisfy `p`. -/
def reduceWhile (r : Reducer α) (p : Operator → Bool) :
    Stack Operator → Stack α → EStateM.Result Error (State α) Unit
  | [], operands => .ok () ⟨operands, []⟩
  | op :: ops, operands =>
    if p op then
      match execute r op operands with
      | .ok _ operands => reduceWhile r p ops operands
      | .error e operands => .error e ⟨operands, ops⟩
    else .ok () ⟨operands, op :: ops⟩

/-- Executes the operator on top, which must be there. -/
def executeTop (r : Reducer α) : Machine α Unit := fun s =>
  match s.operators with
  | [] => .error (.limit .operatorMissing) s
  | op :: ops =>
    match execute r op s.operands with
    | .ok _ operands => .ok () ⟨operands, ops⟩
    | .error e operands => .error e ⟨operands, ops⟩

/-- Reduces the operators on top that satisfy `p`. -/
def reduce (r : Reducer α) (p : Operator → Bool) : Machine α Unit := fun s =>
  reduceWhile r p s.operators s.operands

/-! ## Transitions -/

def pushOperand (v : α) : Machine α Unit := fun s =>
  .ok () { s with operands := s.operands.push v }

/-- An operator that nothing to its left is reduced for. -/
def pushWaiting (op : Operator) : Machine α Unit := fun s =>
  .ok () { s with operators := s.operators.push op }

/-- Whether an operator on the stack is reduced before `op` is pushed. -/
def yieldsTo (op waiting : Operator) : Bool :=
  waiting.executable && op.precedence ≤ waiting.precedence

def pushOperator (r : Reducer α) (op : Operator) : Machine α Unit := do
  reduce r (yieldsTo op)
  pushWaiting op

def openBracket (op : Operator) : Machine α Unit :=
  pushWaiting op

/-- Calls the function on top, if a function is there. -/
def callWaiting (r : Reducer α) : Machine α Unit := fun s =>
  match s.operators with
  | .function _ :: _ => executeTop r s
  | _ => .ok () s

/-- Takes the left bracket off the top; `op` is the bracket that misses its partner otherwise. -/
def matchBracket (op : Operator) : Machine α Unit := fun s =>
  match s.operators with
  | .bracket .left :: ops => .ok () { s with operators := ops }
  | _ => .error (.unmatchedBracket op) s

/-- Reduces back to the left bracket and calls the function in front of it. -/
def closeBracket (r : Reducer α) (op : Operator) : Machine α Unit := do
  reduce r Operator.executable
  matchBracket op
  callWaiting r

/-- The transition for an operator of any class. -/
def apply (r : Reducer α) : Operator → Machine α Unit
  | .binary op => pushOperator r (.binary op)
  | .function f => pushWaiting (.function f)
  | .bracket .left => openBracket (.bracket .left)
  | .bracket .right => closeBracket r (.bracket .right)

/-- Fails if an operator is left that cannot be executed. -/
def expectNoOperators : Machine α Unit := fun s =>
  match s.operators with
  | [] => .ok () s
  | .bracket .left :: _ => .error (.unmatchedBracket (.bracket .left)) s
  | op :: _ => .error (.unexecutable op) s

/-- Reduces everything that is left. -/
def drain (r : Reducer α) : Machine α Unit := do
  reduce r Operator.executable
  expectNoOperators

/-- The only operand. -/
def result : Machine α α := fun s =>
  match s.operands with
  | [v] => .ok v s
  | operands => .error (.noResult operands.length) s

def finish (r : Reducer α) : Machine α α := do
  drain r
  result

def clear : Machine α Unit := fun _ =>
  .ok () State.empty

/-- Runs a transition where the state after an error does not matter. -/
def run {β : Type} (m : Machine α β) (s : State α) : Except Error (β × State α) :=
  match m s with
  | .ok v s => .ok (v, s)
  | .error e _ => .error e

/-! ## Small facts -/

theorem reduceWhile_of_not {r : Reducer α} {p : Operator → Bool} {op : Operator}
    (ops : Stack Operator) (operands : Stack α) (h : p op = false) :
    reduceWhile r p (op :: ops) operands = .ok () ⟨operands, op :: ops⟩ := by
  simp [reduceWhile, h]

/-- What a successful reduction leaves on top does not satisfy the predicate. -/
theorem top_of_reduceWhile {r : Reducer α} {p : Operator → Bool} {ops : Stack Operator}
    {operands : Stack α} {s : State α} (h : reduceWhile r p ops operands = .ok () s) :
    ∀ op, s.operators.top? = some op → p op = false := by
  induction ops generalizing operands with
  | nil =>
    cases h
    simp [Stack.top?]
  | cons op ops ih =>
    unfold reduceWhile at h
    split at h
    · split at h
      · exact ih h
      · cases h
    · cases h
      simpa [Stack.top?] using ‹¬p op = true›

end Machine

end Reckon

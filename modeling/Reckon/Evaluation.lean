import Reckon.Binding
import Reckon.Machine
import Reckon.Operator.Execute
import Reckon.Token.Lexer

/-!
# Evaluation — from tokens to a result

An evaluation feeds tokens to a machine.  Literals become operands, a name behind a `$` is resolved
as a variable, and operators take the transition of their class; a `-` that stands where an operand
is expected is the function `opp`.

Which operands the machine works on is given by a `Semantics`.  `Semantics.direct` works on values,
with variables taken from bindings; formulas are compiled by the same evaluation with symbolic
operands.

Tokens are taken one by one, so an error among them comes before the error at which the reading of
the source text ended.
-/

namespace Reckon

/-- How literals, variables and operators become operands. -/
structure Semantics (α : Type) extends Reducer α where
  number : Float → α
  text : String → α
  resolve : String → Except Error α

namespace Semantics

/-- The reducer that executes operators on values. -/
def concrete [Capacity] : Reducer Value where
  binary := Binary.execute
  function := Function.execute

/-- Evaluation on values; `missing` is the error for a variable that is not bound. -/
def direct [Capacity] (missing : String → Error) (b : Bindings) : Semantics Value where
  toReducer := concrete
  number := .number
  text s := .text s
  resolve := b.resolve missing

end Semantics

/-- A machine in the middle of a token list. -/
structure Evaluation (α : Type) where
  state : Machine.State α
  /-- Whether a minus sign would stand in front of its operand. -/
  awaitsOperand : Bool
  /-- The marker whose variable has not been named yet. -/
  marker : Option Token

namespace Evaluation

variable {α : Type}

/-- An evaluation before its first token. -/
def start : Evaluation α := ⟨Machine.State.empty, true, none⟩

/-- The operator that a token stands for: names are functions, symbols are all the others. -/
def operator? (t : Token) : Option Operator :=
  (Operator.lookup? t.text).filter fun op =>
    match t.kind with
    | .name => op.isFunction
    | .symbol => !op.isFunction
    | _ => false

/-- The error for a token that has no meaning where it stands. -/
def unsupported (t : Token) : Error :=
  .unsupportedToken t.text t.position

/-- The evaluation with an operand pushed. -/
def withOperand (e : Evaluation α) (v : α) : Evaluation α where
  state := { e.state with operands := e.state.operands.push v }
  awaitsOperand := false
  marker := none

/-- Whether a minus sign behind an operator stands in front of its operand. -/
def opensOperand (op : Operator) : Bool :=
  op ≠ .rightBracket

/-- Feeds an operator. -/
def feedOperator (r : Reducer α) (e : Evaluation α) (op : Operator) :
    Except Error (Evaluation α) := do
  if op = .minus ∧ e.awaitsOperand = true then
    let (_, state) ← (Machine.pushWaiting .opposite).run e.state
    return { e with state, awaitsOperand := opensOperand .opposite }
  else
    let (_, state) ← (Machine.apply r op).run e.state
    return { e with state, awaitsOperand := opensOperand op }

/-- Feeds a token that is not the name behind a marker. -/
def feedPlain (sem : Semantics α) (e : Evaluation α) (t : Token) : Except Error (Evaluation α) :=
  if t.kind = .number then do
    return e.withOperand (sem.number (← Literal.value t.text))
  else if t.kind = .text then
    return e.withOperand (sem.text t.text)
  else if t.isMarker then
    return { e with marker := some t }
  else
    match operator? t with
    | some op => feedOperator sem.toReducer e op
    | none => throw (unsupported t)

/-- Feeds a token. -/
def feed (sem : Semantics α) (e : Evaluation α) (t : Token) : Except Error (Evaluation α) :=
  match e.marker with
  | some _ =>
    if t.kind = .name then do
      return e.withOperand (← sem.resolve t.text)
    else throw (unsupported t)
  | none => feedPlain sem e t

/-- The result at the end of the tokens. -/
def conclude (sem : Semantics α) (e : Evaluation α) : Except Error α :=
  match e.marker with
  | some t => throw (unsupported t)
  | none => do
    let (v, _) ← (Machine.finish sem.toReducer).run e.state
    return v

/-- Evaluates a reading: its tokens, then the error behind them, then the end. -/
def ofReading (sem : Semantics α) (r : Reading) : Except Error α := do
  let e ← r.tokens.foldlM (feed sem) start
  match r.failure with
  | some failure => throw failure
  | none => e.conclude sem

end Evaluation

/-- The value of a token list. -/
def evaluateTokens [Capacity] (tokens : List Token) (b : Bindings) : Except Error Value :=
  Evaluation.ofReading (Semantics.direct .unknownVariable b) ⟨tokens, none⟩

/-- The value of a source text. -/
def evaluate [Capacity] (source : String) (b : Bindings) : Except Error Value :=
  Evaluation.ofReading (Semantics.direct .unknownVariable b) (Token.lex source)

end Reckon

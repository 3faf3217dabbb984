import Reckon.Formula
import Reckon.Proofs.Machine.Part
import Reckon.Proofs.Formula.Folding

/-!
# Outcome — what flat sequences compute

A replay feeds a flat sequence to a machine.  A sequence `Reads` at a precedence if it holds
together against operators that bind looser, so that it can stand as a part of a longer sequence
without brackets.  This file gives the outcomes of the sequences that a compilation puts together
from such parts:

* `Formula.outcome` — the outcome of a sequence, and `Formula.replay_eq` — a replay comes to it;
* `Reads.outcome_binary` — two operands with an operator between them, bracketed where it is needed;
* `Reads.outcome_call` — a function called with a sequence.
-/

namespace Reckon

open Machine Operand

/-- What a machine reads at an element. -/
def Element.input (sem : Semantics Value) : Element → Input Value
  | .operator op => .operator op
  | .constant v _ => .operand (.ok v)
  | .marker name => .operand (sem.resolve name)

/-- What a machine reads at the elements of a sequence. -/
def inputs (sem : Semantics Value) (es : List Element) : List (Input Value) :=
  es.map (Element.input sem)

@[simp] theorem inputs_nil (sem : Semantics Value) : inputs sem [] = [] := rfl

@[simp] theorem inputs_cons (sem : Semantics Value) (e : Element) (es : List Element) :
    inputs sem (e :: es) = e.input sem :: inputs sem es := rfl

@[simp] theorem inputs_append (sem : Semantics Value) (es es' : List Element) :
    inputs sem (es ++ es') = inputs sem es ++ inputs sem es' :=
  List.map_append

namespace Formula

/-- The outcome of a sequence on a machine of its own. -/
def outcome (sem : Semantics Value) (es : List Element) : Except Error Value :=
  feedAll sem.toReducer .empty (inputs sem es) >>= fun s =>
    settle sem.toReducer Operator.executable s >>= final

theorem outcome_feed (sem : Semantics Value) (e : Element) (s : State Value) :
    Machine.outcome (feed sem e s) = feedInput sem.toReducer s (e.input sem) := by
  cases e with
  | operator op =>
    rfl
  | constant v marks =>
    rfl
  | marker name =>
    simp only [feed, Element.input, feedInput]
    cases sem.resolve name <;> rfl

theorem outcome_forM (sem : Semantics Value) (es : List Element) (s : State Value) :
    Machine.outcome ((es.forM (feed sem)) s) = feedAll sem.toReducer s (inputs sem es) := by
  -- the machine keeps its state in between, the inputs hand it on
  induction es generalizing s with
  | nil =>
    rfl
  | cons e es ih =>
    have hcons : (e :: es).forM (feed sem) = feed sem e >>= fun _ => es.forM (feed sem) := rfl
    rw [hcons, outcome_bind, outcome_feed, inputs_cons, feedAll_cons]
    congr 1
    funext t
    exact ih t

theorem run_runSequence (sem : Semantics Value) (es : List Element) :
    ((runSequence sem es).run .empty).map Prod.fst = outcome sem es := by
  have hbind : ∀ (m : Machine Value Unit) (s : State Value),
      ((m >>= fun _ => finish sem.toReducer).run s).map Prod.fst =
        Machine.outcome (m s) >>= fun t => ((finish sem.toReducer).run t).map Prod.fst := by
    intro m s
    change (Machine.run (EStateM.bind m fun _ => finish sem.toReducer) s).map Prod.fst = _
    unfold Machine.run EStateM.bind
    cases m s <;> rfl
  unfold runSequence outcome
  rw [hbind, outcome_forM]
  congr 1
  funext t
  exact run_finish _ t

theorem replay_eq [Capacity] (f : Formula) (b : Bindings) :
    f.replay b = outcome (Semantics.direct .unprovidedVariable b) f.sequence := by
  have hreplay : f.replay b =
      (runSequence (Semantics.direct .unprovidedVariable b) f.sequence).run .empty >>= fun x =>
        .ok x.1 := rfl
  rw [hreplay, ← run_runSequence]
  cases (runSequence (Semantics.direct .unprovidedVariable b) f.sequence).run .empty <;> rfl

end Formula

open Formula

/-- A sequence that stands for its outcome wherever operators bind looser than `p`; one that holds
together behind a minus, too, needs no brackets anywhere. -/
inductive Reads (sem : Semantics Value) (es : List Element) : Int → Prop where
  | operation {p : Int} : -1 ≤ p → p ≤ 2 →
    Computes sem.toReducer p (inputs sem es) (outcome sem es) → Reads sem es p
  | tight : ComputesTight sem.toReducer (inputs sem es) (outcome sem es) →
    Reads sem es atomicPrecedence

variable {sem : Semantics Value} {es es' : List Element} {p q : Int}

/-! ## Parts -/

theorem outcome_of_computes {o : Except Error Value} (hp : -1 ≤ p)
    (h : Computes sem.toReducer p (inputs sem es) o) : outcome sem es = o :=
  (h.mono hp).final

theorem outcome_of_computesTight {o : Except Error Value}
    (h : ComputesTight sem.toReducer (inputs sem es) o) : outcome sem es = o :=
  outcome_of_computes (by decide) (h.computes (p := 2) (by decide))

theorem Reads.of_computes {o : Except Error Value} (hp : -1 ≤ p) (hp' : p ≤ 2)
    (h : Computes sem.toReducer p (inputs sem es) o) : Reads sem es p := by
  rw [← outcome_of_computes hp h] at h
  exact .operation hp hp' h

theorem Reads.of_computesTight {o : Except Error Value}
    (h : ComputesTight sem.toReducer (inputs sem es) o) : Reads sem es atomicPrecedence := by
  rw [← outcome_of_computesTight h] at h
  exact .tight h

@[simp] theorem outcome_marker (sem : Semantics Value) (name : String) :
    outcome sem [.marker name] = sem.resolve name :=
  outcome_of_computesTight (computesTight_operand _ _)

theorem reads_constant (sem : Semantics Value) (v : Value) (marks : List (Option Nat)) :
    Reads sem [.constant v marks] atomicPrecedence :=
  .of_computesTight (computesTight_operand _ (.ok v))

theorem reads_marker (sem : Semantics Value) (name : String) :
    Reads sem [.marker name] atomicPrecedence :=
  .of_computesTight (computesTight_operand _ (sem.resolve name))

theorem inputs_bracketed (sem : Semantics Value) (wrap : Bool) (es : List Element) :
    inputs sem (Operand.bracketed wrap es) = wrapped wrap (inputs sem es) := by
  cases wrap with
  | false =>
    rfl
  | true =>
    exact inputs_append sem (Element.leftBracket :: es) [Element.rightBracket]

theorem Reads.part (h : Reads sem es p) :
    Part sem.toReducer (inputs sem es) (outcome sem es) p := by
  cases h with
  | operation hp hp' h =>
    exact .operation hp hp' h
  | tight h =>
    exact .tight (by decide) h

/-! ## Operators and functions -/

/-- Two parts with an operator between them. -/
theorem Reads.computes_binary (h : Reads sem es p) (h' : Reads sem es' q) (op : Binary) :
    Computes sem.toReducer op.precedence
      (inputs sem (Operand.bracketed (p < op.precedence) es ++ .operator (.binary op) ::
        Operand.bracketed (q ≤ op.precedence) es'))
      (outcome sem es >>= fun v => outcome sem es' >>= fun w => sem.binary op v w) := by
  rw [inputs_append, inputs_cons, inputs_bracketed, inputs_bracketed]
  exact (h.part.binary h'.part op).computes (Int.le_refl _) (precedence_le (.binary op))

theorem Reads.computesTight_call (h : Reads sem es p) (f : Function) :
    ComputesTight sem.toReducer (inputs sem (callSequence (.function f) es))
      (outcome sem es >>= fun v => sem.function f v) := by
  rw [callSequence, inputs_cons, inputs_bracketed]
  exact h.part.lowest.call f

/-- The outcome of a function called with a sequence. -/
theorem Reads.outcome_call (h : Reads sem es p) (f : Function) :
    outcome sem (callSequence (.function f) es) =
      outcome sem es >>= fun v => sem.function f v :=
  outcome_of_computesTight (h.computesTight_call f)

theorem Reads.call (h : Reads sem es p) (f : Function) :
    Reads sem (callSequence (.function f) es) atomicPrecedence :=
  .of_computesTight (h.computesTight_call f)

/-- The outcome of two operands with an operator between them. -/
theorem Reads.outcome_binary {a c : Operand} (ha : Reads sem a.sequence a.precedence)
    (hc : Reads sem c.sequence c.precedence) (op : Binary) :
    outcome sem (binarySequence a (.binary op) c op.precedence) =
      outcome sem a.sequence >>= fun v => outcome sem c.sequence >>= fun w =>
        sem.binary op v w := by
  have hop : -1 ≤ op.precedence := by cases op <;> decide
  exact outcome_of_computes hop (ha.computes_binary hc op)

theorem Reads.binary {a c : Operand} (ha : Reads sem a.sequence a.precedence)
    (hc : Reads sem c.sequence c.precedence) (op : Binary) :
    Reads sem (binarySequence a (.binary op) c op.precedence) op.precedence := by
  have hop : -1 ≤ op.precedence := by cases op <;> decide
  exact .of_computes hop (precedence_le (.binary op)) (ha.computes_binary hc op)

end Reckon

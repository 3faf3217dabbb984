import Reckon.Proofs.Evaluation.Lockstep
import Reckon.Proofs.Formula.Tree

/-!
# Parallel — two replays with the same bindings

Sequences with the same operators and the same markers, and with constants that are related, are
replayed side by side.  The machines take the same steps on related values, until a step has
outcomes that are not related:

* `Comparison.replays` — replays next to each other, under a relation of values;
* `Comparison.lockstep_replay` — they are in lockstep;
* `Semantics.Keeps.replay` — a replay next to itself: a property of its constants that operators
  keep holds of all that it meets.
-/

namespace Reckon

open Machine

variable {Same : Value → Value → Prop}

/-- Elements of the same kind with related constants. -/
inductive Element.Related (Same : Value → Value → Prop) : Element → Element → Prop where
  | operator (op : Operator) : Related Same (.operator op) (.operator op)
  | constant {v w : Value} (ms ns : List (Option Nat)) : Same v w →
    Related Same (.constant v ms) (.constant w ns)
  | marker (name : String) : Related Same (.marker name) (.marker name)

variable [Capacity]

namespace Comparison

/-- Replays with the same bindings, and a relation between their operands. -/
def replays (b : Bindings) (Same : Value → Value → Prop) : Comparison Value Value where
  left := .direct .unprovidedVariable b
  right := .direct .unprovidedVariable b
  SameOperand := Same
  SameError := (· = ·)

variable {b : Bindings} {s t : State Value} {e e' : Element} {es es' : List Element}

theorem lockstep_feed (he : e.Related Same e') (h : (replays b Same).SameState s t) :
    (replays b Same).Lockstep (replays b Same).SameState ((Interpretation.direct b).feed s e)
      ((Interpretation.direct b).feed t e') := by
  cases he with
  | operator op =>
    exact lockstep_tracedAdvance (fun _ _ => rfl) op h
  | constant ms ns hvw =>
    exact .pure (h.withOperand hvw)
  | marker name =>
    have hstep : (replays b Same).SameStep (.resolution name) (.resolution name) := .resolution name
    exact (Lockstep.single hstep (.resolution name)).map fun v w hvw => h.withOperand hvw

theorem lockstep_foldlM_feed (hes : List.Forall₂ (Element.Related Same) es es')
    (h : (replays b Same).SameState s t) :
    (replays b Same).Lockstep (replays b Same).SameState
      (es.foldlM (Interpretation.direct b).feed s)
      (es'.foldlM (Interpretation.direct b).feed t) := by
  induction hes generalizing s t with
  | nil =>
    exact .pure h
  | cons he _ ih =>
    rw [List.foldlM_cons, List.foldlM_cons]
    exact (lockstep_feed he h).bind fun s t h => ih h

/-- Replays of related sequences go together until a step has different outcomes. -/
theorem lockstep_replay (hes : List.Forall₂ (Element.Related Same) es es') :
    (replays b Same).Lockstep Same ((Interpretation.direct b).replay es)
      ((Interpretation.direct b).replay es') := by
  have hempty : (replays b Same).SameState .empty .empty := ⟨.nil, rfl⟩
  refine (lockstep_foldlM_feed hes hempty).bind fun s t h => ?_
  have hsettle : (replays b Same).Lockstep (replays b Same).SameState
      (tracedSettle Semantics.concrete Operator.executable s.operators s.operands)
      (tracedSettle Semantics.concrete Operator.executable t.operators t.operands) := by
    rw [← h.operators]
    exact lockstep_tracedSettle (fun _ _ => rfl) _ _ h.operands
  exact hsettle.bind fun s t h => .ofExcept (agree_final (fun _ _ => rfl) h)

end Comparison

/-! ## One replay -/

/-- If the constants of a sequence and the bound values have a property that operators keep, so have
the operands of every step of a replay and its result. -/
theorem Semantics.Keeps.replay {b : Bindings} {r : Reading} {P : Value → Prop}
    (h : (Semantics.direct .unprovidedVariable b).Keeps r P) {es : List Element}
    (hes : ∀ v marks, .constant v marks ∈ es → P v) :
    (∀ s ∈ ((Interpretation.direct b).replay es).steps, s.All P) ∧
      ∀ v, ((Interpretation.direct b).replay es).result = .ok v → P v := by
  have hrelated : List.Forall₂ (Element.Related fun v w => v = w ∧ P v) es es := by
    refine List.forall₂_same.2 ?_
    intro e he
    cases e with
    | operator op =>
      exact .operator op
    | constant v marks =>
      exact .constant marks marks ⟨rfl, hes v marks he⟩
    | marker name =>
      exact .marker name
  cases Comparison.lockstep_replay (b := b) hrelated with
  | apart _ hpart _ _ =>
    exact absurd hpart h.not_parting
  | together hsteps hresult =>
    constructor
    · intro s hs
      cases List.forall₂_same.1 hsteps s hs with
      | resolution name =>
        trivial
      | reduction op hoperands =>
        exact fun x hx => (List.forall₂_same.1 hoperands x hx).2
    · intro v hv
      rw [hv] at hresult
      cases hresult with
      | ok hsame =>
        exact hsame.2

end Reckon

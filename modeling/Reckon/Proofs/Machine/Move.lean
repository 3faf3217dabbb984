import Mathlib.Logic.Relation
import Reckon.Proofs.Machine.Outcome

/-!
# Move — the smallest changes of a state

One transition may execute many operators, and it may fail halfway.  Here transitions are taken
apart into moves, each of which touches one operand or the operator on top:

* `Machine.Move` — an operand or an operator arrives, an operator is executed, a bracket is closed;
* `Machine.Goes` — a transition whose way is made of moves, up to its end or up to its failure;
* `Machine.goes_apply`, `Machine.goes_finish` — every transition goes by moves;
* `Machine.Moves.forall_operands` — a property that operators keep holds of all operands in every
  state that moves lead to.

The states between the moves are the states that a machine passes through, so an invariant of moves
holds in the middle of a transition, too.
-/

namespace Reckon
namespace Machine

variable {α β γ : Type} {r : Reducer α} {Given : α → Prop}

/-- The state that a computation leaves, whether it fails or not. -/
def left {ε σ : Type} : EStateM.Result ε σ β → σ
  | .ok _ s => s
  | .error _ s => s

/-- A change of one operand or of the operator on top; operands that arrive have the property
`Given`. -/
inductive Move (r : Reducer α) (Given : α → Prop) : State α → State α → Prop where
  | operand (s : State α) {v : α} : Given v → Move r Given s (s.withOperand v)
  | operator (s : State α) (op : Operator) : Move r Given s (s.withOperator op)
  | execution (op : Operator) (ops : Stack Operator) (operands : Stack α) :
    Move r Given ⟨operands, op :: ops⟩ ⟨left (execute r op operands), ops⟩
  | closing (ops : Stack Operator) (operands : Stack α) :
    Move r Given ⟨operands, .bracket .left :: ops⟩ ⟨operands, ops⟩

/-- A chain of moves. -/
abbrev Moves (r : Reducer α) (Given : α → Prop) : State α → State α → Prop :=
  Relation.ReflTransGen (Move r Given)

/-- A transition that goes from every state to the one that it leaves by moves. -/
def Goes (r : Reducer α) (Given : α → Prop) (m : Machine α β) : Prop :=
  ∀ s, Moves r Given s (left (m s))

/-! ## Composition -/

theorem goes_pure (v : β) : Goes r Given (pure v : Machine α β) := fun _ => .refl

theorem goes_throw (e : Error) : Goes r Given (throw e : Machine α β) := fun _ => .refl

theorem Goes.bind {m : Machine α β} {k : β → Machine α γ} (h : Goes r Given m)
    (hk : ∀ v, Goes r Given (k v)) : Goes r Given (m >>= k) := by
  intro s
  have hs := h s
  change Moves r Given s (left (EStateM.bind m k s))
  unfold EStateM.bind
  cases hm : m s with
  | ok v t =>
    rw [hm] at hs
    exact hs.trans (hk v t)
  | error e t =>
    -- the second part is not reached
    rw [hm] at hs
    exact hs

theorem Goes.forM {ι : Type} {f : ι → Machine α Unit} {xs : List ι}
    (h : ∀ x ∈ xs, Goes r Given (f x)) : Goes r Given (xs.forM f) := by
  induction xs with
  | nil =>
    exact goes_pure ()
  | cons x xs ih =>
    obtain ⟨hx, hxs⟩ := List.forall_mem_cons.1 h
    exact hx.bind fun _ => ih hxs

/-! ## Transitions -/

/-- Operators are executed from the top down, one move for each of them. -/
theorem moves_reduceWhile (p : Operator → Bool) (ops : Stack Operator) (operands : Stack α) :
    Moves r Given ⟨operands, ops⟩ (left (reduceWhile r p ops operands)) := by
  induction ops generalizing operands with
  | nil =>
    exact .refl
  | cons op ops ih =>
    have hmove : Move r Given _ _ := .execution op ops operands
    unfold reduceWhile
    by_cases hp : p op = true
    · rw [if_pos hp]
      cases hexecute : execute r op operands with
      | ok u operands' =>
        rw [hexecute] at hmove
        exact .head hmove (ih operands')
      | error e operands' =>
        rw [hexecute] at hmove
        exact .single hmove
    · rw [if_neg hp]
      exact .refl

theorem goes_reduce (p : Operator → Bool) : Goes r Given (reduce r p) := fun s =>
  moves_reduceWhile p s.operators s.operands

theorem goes_executeTop : Goes r Given (executeTop r) := by
  rintro ⟨operands, _ | ⟨op, ops⟩⟩
  · exact .refl
  · have hmove : Move r Given _ _ := .execution op ops operands
    unfold executeTop
    dsimp only
    cases hexecute : execute r op operands with
    | ok u operands' =>
      rw [hexecute] at hmove
      exact .single hmove
    | error e operands' =>
      rw [hexecute] at hmove
      exact .single hmove

theorem goes_pushOperand {v : α} (h : Given v) : Goes r Given (pushOperand v) := fun s =>
  .single (.operand s h)

theorem goes_pushWaiting (op : Operator) : Goes r Given (pushWaiting op : Machine α Unit) :=
  fun s => .single (.operator s op)

theorem goes_callWaiting : Goes r Given (callWaiting r) := by
  intro s
  unfold callWaiting
  split
  · exact goes_executeTop s
  · exact .refl

theorem goes_matchBracket (op : Operator) : Goes r Given (matchBracket op : Machine α Unit) := by
  rintro ⟨operands, ops⟩
  unfold matchBracket
  split
  · rename_i ops' hops
    obtain rfl : ops = .bracket .left :: ops' := hops
    exact .single (.closing ops' operands)
  · exact .refl

/-- The transition for an operator of any class goes by moves. -/
theorem goes_apply (op : Operator) : Goes r Given (apply r op) := by
  match op with
  | .binary op =>
    exact (goes_reduce _).bind fun _ => goes_pushWaiting _
  | .function f =>
    exact goes_pushWaiting _
  | .bracket .left =>
    exact goes_pushWaiting _
  | .bracket .right =>
    exact (goes_reduce _).bind fun _ => (goes_matchBracket _).bind fun _ => goes_callWaiting

theorem goes_expectNoOperators : Goes r Given (expectNoOperators : Machine α Unit) := by
  intro s
  unfold expectNoOperators
  split <;> exact .refl

theorem goes_result : Goes r Given (result : Machine α α) := by
  intro s
  unfold result
  split <;> exact .refl

/-- So does the end of the input. -/
theorem goes_finish : Goes r Given (finish r) :=
  ((goes_reduce _).bind fun _ => goes_expectNoOperators).bind fun _ => goes_result

theorem Goes.moves_of_outcome {m : Machine α Unit} (h : Goes r Given m) {s t : State α}
    (hm : outcome (m s) = .ok t) : Moves r Given s t := by
  have hs := h s
  cases hresult : m s with
  | ok u t' =>
    rw [hresult] at hm hs
    cases hm
    exact hs
  | error e t' =>
    rw [hresult] at hm
    cases hm

theorem moves_of_advance {op : Operator} {s t : State α} (h : advance r op s = .ok t) :
    Moves r Given s t :=
  (goes_apply op).moves_of_outcome h

/-! ## Invariants -/

/-- The results of operators on operands with a property have it, too. -/
structure Preserves (r : Reducer α) (P : α → Prop) : Prop where
  binary : ∀ {op x y z}, P x → P y → r.binary op x y = .ok z → P z
  function : ∀ {f x z}, P x → r.function f x = .ok z → P z

variable {P : α → Prop} {s t : State α}

/-- Whatever an operator does, it leaves operands that were there and results. -/
theorem Preserves.execute (h : Preserves r P) {op : Operator} {operands : Stack α}
    (hoperands : ∀ v ∈ operands, P v) : ∀ v ∈ left (execute r op operands), P v := by
  unfold Machine.execute
  split
  · rename_i op y x below
    obtain ⟨hy, hx, hbelow⟩ : P y ∧ P x ∧ ∀ v ∈ below, P v := by simpa using hoperands
    cases hz : r.binary op x y with
    | ok z =>
      exact List.forall_mem_cons.2 ⟨h.binary hx hy hz, hbelow⟩
    | error e =>
      exact hbelow
  · rename_i f x below
    obtain ⟨hx, hbelow⟩ := List.forall_mem_cons.1 hoperands
    cases hz : r.function f x with
    | ok z =>
      exact List.forall_mem_cons.2 ⟨h.function hx hz, hbelow⟩
    | error e =>
      exact hbelow
  · exact hoperands
  · exact hoperands

theorem Move.forall_operands (hmove : Move r Given s t) (h : Preserves r P)
    (hgiven : ∀ v, Given v → P v) (hs : ∀ v ∈ s.operands, P v) : ∀ v ∈ t.operands, P v := by
  cases hmove with
  | operand s hv =>
    exact List.forall_mem_cons.2 ⟨hgiven _ hv, hs⟩
  | operator s op =>
    exact hs
  | execution op ops operands =>
    exact h.execute hs
  | closing ops operands =>
    exact hs

/-- A property of the operands that arrive, if operators keep it, is one of all operands. -/
theorem Moves.forall_operands (hmoves : Moves r Given s t) (h : Preserves r P)
    (hgiven : ∀ v, Given v → P v) (hs : ∀ v ∈ s.operands, P v) : ∀ v ∈ t.operands, P v := by
  induction hmoves with
  | refl =>
    exact hs
  | tail _ hmove ih =>
    exact hmove.forall_operands h hgiven ih

end Machine
end Reckon

import Reckon.Proofs.Machine.Outcome

/-!
# Conserved — what executing operators leaves as it is

If executing an operator does not change some quantity of the operands, no transition of the machine
does, because operators are all that ever changes operands that are there:

* `Reducer.Conserves r q` — executing an operator does not change the quantity `q` of the operands;
* `Reducer.Conserves.settle`, `Reducer.Conserves.advance` — neither do reductions and transitions.
-/

namespace Reckon

open Machine

variable {α β : Type}

/-- Executing an operator does not change the quantity `q` of the operands. -/
def Reducer.Conserves (r : Reducer α) (q : Stack α → β) : Prop :=
  ∀ {op : Operator} {operands operands' : Stack α},
    perform r op operands = .ok operands' → q operands' = q operands

namespace Reducer.Conserves

variable {r : Reducer α} {q : Stack α → β} {s t : State α}

theorem settle (h : r.Conserves q) {p : Operator → Bool}
    (hsettle : Machine.settle r p s = .ok t) : q t.operands = q s.operands := by
  obtain ⟨operands, ops⟩ := s
  -- on the operators that wait; the first one that stays ends the reduction
  induction ops generalizing operands with
  | nil =>
    cases hsettle
    rfl
  | cons op ops ih =>
    cases hp : p op with
    | false =>
      rw [settle_cons_of_false r ops operands hp] at hsettle
      cases hsettle
      rfl
    | true =>
      rw [settle_cons_of_true r ops operands hp] at hsettle
      obtain ⟨operands', hperform, hsettle⟩ := Except.exists_of_bind_eq_ok hsettle
      exact (ih operands' hsettle).trans (h hperform)

theorem close (h : r.Conserves q) {op : Operator} (hclose : Machine.close r op s = .ok t) :
    q t.operands = q s.operands := by
  obtain ⟨operands, ops⟩ := s
  -- only a call that waits in front of the bracket changes the operands
  rcases ops with _ | ⟨_ | (_ | _) | _, _ | ⟨_ | _ | f, ops⟩⟩
  all_goals try cases hclose
  · rfl
  · rfl
  · rfl
  · change (perform r (.function f) operands).map (⟨·, ops⟩) = .ok t at hclose
    cases hperform : perform r (.function f) operands with
    | error e =>
      rw [hperform] at hclose
      cases hclose
    | ok operands' =>
      rw [hperform] at hclose
      cases hclose
      exact h hperform

theorem advance (h : r.Conserves q) {op : Operator} (hadvance : Machine.advance r op s = .ok t) :
    q t.operands = q s.operands := by
  match op with
  | .function f =>
    cases hadvance
    rfl
  | .bracket .left =>
    cases hadvance
    rfl
  | .binary op =>
    rw [advance_binary] at hadvance
    obtain ⟨u, hsettle, hadvance⟩ := Except.exists_of_bind_eq_ok hadvance
    have hoperands := h.settle hsettle
    cases hadvance
    exact hoperands
  | .bracket .right =>
    rw [advance_right] at hadvance
    obtain ⟨u, hsettle, hclose⟩ := Except.exists_of_bind_eq_ok hadvance
    exact (h.close hclose).trans (h.settle hsettle)

end Reducer.Conserves

end Reckon

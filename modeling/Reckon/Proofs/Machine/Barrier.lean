import Reckon.Proofs.Machine.Outcome

/-!
# Barrier — what happens inside a bracket stays there

A left bracket keeps the machine from everything below it.  `State.within s outer` is the state `s`
on top of the state `outer`, with a left bracket between them.  A transition that succeeds on `s` by
itself does the same to `s.within outer`, and leaves `outer` alone:

* `Machine.settle_within`, `Machine.advance_within` — reductions and transitions;
* `Machine.advance_right_within` — the right bracket that closes the barrier, once `s` has come down
  to a single operand, hands this operand to the state below and calls the function that waits
  there.
-/

namespace Reckon
namespace Machine

variable {α : Type}

/-- A state on top of another one, behind a left bracket. -/
def State.within (s outer : State α) : State α where
  operands := s.operands ++ outer.operands
  operators := s.operators ++ .bracket .left :: outer.operators

/-! ## Reduction -/

/-- An operator that has enough operands takes the same ones whatever lies below them. -/
theorem perform_append {r : Reducer α} {op : Operator} {operands operands' : Stack α}
    (h : perform r op operands = .ok operands') (below : Stack α) :
    perform r op (operands ++ below) = .ok (operands' ++ below) := by
  cases op with
  | bracket side =>
    rw [perform_bracket] at h
    cases h
  | function f =>
    cases operands with
    | nil =>
      cases h
    | cons x rest =>
      rw [perform_function] at h
      rw [List.cons_append, perform_function]
      cases hx : r.function f x with
      | error e =>
        rw [hx] at h
        cases h
      | ok v =>
        rw [hx] at h
        cases h
        rfl
  | binary op =>
    rcases operands with _ | ⟨y, _ | ⟨x, rest⟩⟩
    · cases h
    · cases h
    · rw [perform_binary] at h
      rw [List.cons_append, List.cons_append, perform_binary]
      cases hxy : r.binary op x y with
      | error e =>
        rw [hxy] at h
        cases h
      | ok v =>
        rw [hxy] at h
        cases h
        rfl

/-- A reduction that no bracket takes part in stops at the barrier at the latest. -/
theorem settle_within {r : Reducer α} {p : Operator → Bool} (hp : p (.bracket .left) = false)
    {s t : State α} (h : settle r p s = .ok t) (outer : State α) :
    settle r p (s.within outer) = .ok (t.within outer) := by
  obtain ⟨operands, ops⟩ := s
  -- the operators are taken from the top, and behind the last of them the barrier is met
  induction ops generalizing operands with
  | nil =>
    cases h
    exact settle_cons_of_false r outer.operators (operands ++ outer.operands) hp
  | cons op ops ih =>
    cases hop : p op with
    | false =>
      rw [settle_cons_of_false r ops operands hop] at h
      cases h
      exact settle_cons_of_false r _ _ hop
    | true =>
      rw [settle_cons_of_true r ops operands hop] at h
      obtain ⟨operands', hperform, h⟩ := Except.exists_of_bind_eq_ok h
      have hfirst := perform_append hperform outer.operands
      change settle r p ⟨operands ++ outer.operands, op :: (ops ++ .bracket .left :: _)⟩ = _
      rw [settle_cons_of_true r _ _ hop, hfirst]
      exact ih operands' h

/-! ## Transitions -/

theorem close_within {r : Reducer α} {op : Operator} {s t : State α} (h : close r op s = .ok t)
    (outer : State α) : close r op (s.within outer) = .ok (t.within outer) := by
  obtain ⟨operands, ops⟩ := s
  -- without a left bracket there is nothing to be closed
  rcases ops with _ | ⟨_ | (_ | _) | _, ops⟩
  · cases h
  · cases h
  · rcases ops with _ | ⟨op' | side | f, ops⟩
    · cases h
      -- in front of the bracket is the barrier, which is no function
      rfl
    · cases h
      rfl
    · cases h
      rfl
    · change (perform r (.function f) operands).map (State.mk · ops) = .ok t at h
      change (perform r (.function f) (operands ++ outer.operands)).map
        (State.mk · (ops ++ .bracket .left :: outer.operators)) = .ok (t.within outer)
      cases hperform : perform r (.function f) operands with
      | error e =>
        rw [hperform] at h
        cases h
      | ok operands' =>
        rw [hperform] at h
        cases h
        rw [perform_append hperform]
        rfl
  · cases h
  · cases h

/-- A transition inside a bracket is the transition by itself. -/
theorem advance_within {r : Reducer α} {op : Operator} {s t : State α}
    (h : advance r op s = .ok t) (outer : State α) :
    advance r op (s.within outer) = .ok (t.within outer) := by
  rcases op with op | (_ | _) | f
  · rw [advance_binary] at h ⊢
    obtain ⟨u, hsettle, h⟩ := Except.exists_of_bind_eq_ok h
    cases h
    rw [settle_within rfl hsettle]
    rfl
  · cases h
    rfl
  · rw [advance_right] at h ⊢
    obtain ⟨u, hsettle, hclose⟩ := Except.exists_of_bind_eq_ok h
    rw [settle_within rfl hsettle]
    exact close_within hclose outer
  · cases h
    rfl

/-! ## The closing bracket -/

/-- Only a single operand and no operator is the end of a calculation. -/
theorem eq_of_final {s : State α} {v : α} (h : final s = .ok v) :
    s = State.empty.withOperand v := by
  obtain ⟨operands, ops⟩ := s
  rcases ops with _ | ⟨_ | (_ | _) | _, ops⟩
  · rcases operands with _ | ⟨w, _ | ⟨w', operands⟩⟩
    · cases h
    · cases h
      rfl
    · cases h
  · cases h
  · cases h
  · cases h
  · cases h

/-- Behind its bracket, a closed state calls the function that waits. -/
theorem close_withOperator_left (r : Reducer α) (op : Operator) (s : State α) (v : α) :
    close r op ((s.withOperator (.bracket .left)).withOperand v) =
      outcome ((pushOperand v >>= fun _ => callWaiting r) s) := by
  rw [outcome_bind, ← outcome_matchBracket, outcome_bind]
  rfl

/-- What would have been the end by itself is an operand for the state below the barrier. -/
theorem advance_right_within {r : Reducer α} {s : State α} {v : α}
    (h : (settle r Operator.executable s >>= final) = .ok v) (outer : State α) :
    advance r (.bracket .right) (s.within outer) =
      outcome ((pushOperand v >>= fun _ => callWaiting r) outer) := by
  obtain ⟨t, hsettle, hfinal⟩ := Except.exists_of_bind_eq_ok h
  rw [advance_right, settle_within rfl hsettle, Except.bind_ok, eq_of_final hfinal]
  exact close_withOperator_left r _ outer v

end Machine

end Reckon

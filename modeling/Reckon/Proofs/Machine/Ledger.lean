import Reckon.Proofs.Machine.Trace

/-!
# Ledger — what has come in is executed or still there

A machine loses nothing and invents nothing.  Every operator that arrives is executed once or waits
on the stack; a left bracket waits until a right one takes it off; and operands get fewer only by
the operators that make one out of two.

* `Step.operator?`, `executed` — the operators that steps have executed;
* `Machine.Ledger` — the account between two states of a machine;
* `Machine.ledger_settle`, `Machine.ledger_advance` — reductions and transitions keep it.
-/

namespace Reckon

variable {α : Type}

/-- The operator that a step executes. -/
def Step.operator? : Step α → Option Operator
  | .resolution _ => none
  | .reduction op _ => some op

/-- The operators that are executed in some steps, in their order. -/
def executed (steps : List (Step α)) : List Operator :=
  steps.filterMap Step.operator?

@[simp] theorem executed_nil : executed ([] : List (Step α)) = [] := rfl

@[simp] theorem executed_append (steps steps' : List (Step α)) :
    executed (steps ++ steps') = executed steps ++ executed steps' :=
  List.filterMap_append

/-- Whether an operator makes one operand out of two. -/
def Operator.isBinary : Operator → Bool
  | .binary _ => true
  | _ => false

namespace Machine

/-- The account between the state `s` and the state `t`, if the operators `ops` and `count` operands
have come in between and `steps` have been taken. -/
structure Ledger (s : State α) (ops : List Operator) (count : Nat) (steps : List (Step α))
    (t : State α) : Prop where
  operators : (executed steps ++ t.operators.filter Operator.executable).Perm
    (s.operators.filter Operator.executable ++ ops.filter Operator.executable)
  brackets : t.operators.count .leftBracket + ops.count .rightBracket =
    s.operators.count .leftBracket + ops.count .leftBracket
  operands : t.operands.length + (executed steps).countP Operator.isBinary =
    s.operands.length + count

namespace Ledger

variable {s t u : State α} {ops ops' : List Operator} {count count' : Nat}
  {steps steps' : List (Step α)}

theorem refl (s : State α) : Ledger s [] 0 [] s where
  operators := by simp
  brackets := rfl
  operands := rfl

theorem trans (h : Ledger s ops count steps t) (h' : Ledger t ops' count' steps' u) :
    Ledger s (ops ++ ops') (count + count') (steps ++ steps') u where
  operators := by
    rw [executed_append, List.append_assoc, List.filter_append]
    refine (h'.operators.append_left (executed steps)).trans ?_
    rw [← List.append_assoc, ← List.append_assoc]
    exact h.operators.append_right _
  brackets := by
    have hbefore := h.brackets
    have hbehind := h'.brackets
    simp only [List.count_append]
    omega
  operands := by
    have hbefore := h.operands
    have hbehind := h'.operands
    simp only [executed_append, List.countP_append]
    omega

theorem congr_steps (h : Ledger s ops count steps t) (hsteps : steps' = steps) :
    Ledger s ops count steps' t :=
  hsteps ▸ h

/-- Nothing comes in while a machine only reduces. -/
theorem reduce (h : Ledger s [] 0 steps t) (h' : Ledger t ops count steps' u) :
    Ledger s ops count (steps ++ steps') u := by
  simpa using h.trans h'

/-- An operand comes in, with whatever steps have made it. -/
theorem withOperand (s : State α) (v : α) (h : executed steps = []) :
    Ledger s [] 1 steps (s.withOperand v) where
  operators := by simp [State.withOperand, h]
  brackets := rfl
  operands := by simp [State.withOperand, Stack.push, h]

theorem withOperator (s : State α) (op : Operator) (hop : op ≠ .rightBracket) :
    Ledger s [op] 0 [] (s.withOperator op) where
  operators := by
    cases h : op.executable with
    | true =>
      simpa [State.withOperator, Stack.push, h] using
        (List.perm_append_singleton op (s.operators.filter Operator.executable)).symm
    | false =>
      simp [State.withOperator, Stack.push, h]
  brackets := by
    simp [State.withOperator, Stack.push, List.count_cons, hop]
  operands := rfl

end Ledger

/-! ## Reduction -/

/-- An operator that is executed is taken off the stack. -/
theorem ledger_perform {r : Reducer α} {op : Operator} {operands operands' : Stack α}
    (h : (tracedPerform r op operands).result = .ok operands') (ops : Stack Operator) :
    Ledger ⟨operands, op :: ops⟩ [] 0 (tracedPerform r op operands).steps ⟨operands', ops⟩ := by
  match op, operands, h with
  | .binary op, y :: x :: below, h =>
    obtain ⟨v, hv, hpush, hsteps⟩ := Traced.exists_of_result_bind h
    cases hpush
    exact ⟨hsteps ▸ by simp [executed, Step.operator?, Operator.executable, Operator.isBracket],
      by simp [Operator.leftBracket], hsteps ▸ rfl⟩
  | .function f, x :: below, h =>
    obtain ⟨v, hv, hpush, hsteps⟩ := Traced.exists_of_result_bind h
    cases hpush
    exact ⟨hsteps ▸ by simp [executed, Step.operator?, Operator.executable, Operator.isBracket],
      by simp [Operator.leftBracket], hsteps ▸ rfl⟩

theorem ledger_settle {r : Reducer α} {p : Operator → Bool} {ops : Stack Operator}
    {operands : Stack α} {t : State α} (h : (tracedSettle r p ops operands).result = .ok t) :
    Ledger ⟨operands, ops⟩ [] 0 (tracedSettle r p ops operands).steps t := by
  -- every operator that is executed is one entry, up to the first operator that stays
  induction ops generalizing operands with
  | nil =>
    cases h
    exact .refl _
  | cons op ops ih =>
    unfold tracedSettle at h ⊢
    split at h
    · rename_i hp
      rw [if_pos hp]
      obtain ⟨operands', hperform, hrest, hsteps⟩ := Traced.exists_of_result_bind h
      rw [hsteps]
      exact (ledger_perform hperform ops).reduce (ih hrest)
    · rename_i hp
      rw [if_neg hp]
      cases h
      exact .refl _

/-! ## Transitions -/

/-- A right bracket takes its partner off, and the function in front of it is called. -/
theorem ledger_close {r : Reducer α} {s t : State α}
    (h : (tracedClose r .rightBracket s).result = .ok t) :
    Ledger s [.rightBracket] 0 (tracedClose r .rightBracket s).steps t := by
  have hbracket : ∀ (operands : Stack α) (ops : Stack Operator),
      Ledger ⟨operands, .leftBracket :: ops⟩ [.rightBracket] 0 [] ⟨operands, ops⟩ := fun _ _ =>
    ⟨by simp [Operator.leftBracket, Operator.rightBracket, Operator.executable,
      Operator.isBracket], by simp [Operator.leftBracket, Operator.rightBracket], rfl⟩
  obtain ⟨operands, ops⟩ := s
  rcases ops with _ | ⟨_ | (_ | _) | _, ops⟩
  · cases h
  · cases h
  · rcases ops with _ | ⟨op' | side | f, ops⟩
    · cases h
      exact hbracket _ _
    · cases h
      exact hbracket _ _
    · cases h
      exact hbracket _ _
    · obtain ⟨operands', hperform, hpush, hsteps⟩ := Traced.exists_of_result_bind h
      cases hpush
      exact ((hbracket operands _).trans (ledger_perform hperform ops)).congr_steps
        (hsteps.trans (List.append_nil _))
  · cases h
  · cases h

/-- A transition takes in the operator that it is for. -/
theorem ledger_advance {r : Reducer α} {op : Operator} {s t : State α}
    (h : (tracedAdvance r op s).result = .ok t) :
    Ledger s [op] 0 (tracedAdvance r op s).steps t := by
  rcases op with op | (_ | _) | f
  · obtain ⟨u, hsettle, hpush, hsteps⟩ := Traced.exists_of_result_bind h
    cases hpush
    exact ((ledger_settle hsettle).reduce (.withOperator u (.binary op) nofun)).congr_steps hsteps
  · cases h
    exact .withOperator s .leftBracket (by decide)
  · obtain ⟨u, hsettle, hclose, hsteps⟩ := Traced.exists_of_result_bind h
    exact ((ledger_settle hsettle).reduce (ledger_close hclose)).congr_steps hsteps
  · cases h
    exact .withOperator s (.function f) nofun

end Machine

end Reckon

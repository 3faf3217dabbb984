import Reckon.Proofs.Evaluation.Missing
import Reckon.Proofs.Evaluation.Verdict
import Reckon.Proofs.Machine.Ascent

/-!
# Passage — the states that an evaluation passes through

An evaluation starts with the empty machine and makes at most one call of it for each token, so all
states between its tokens are states that calls lead to.  What no call does there, no evaluation
does:

* `Evaluation.attained_foldlM` — the states between tokens are those that calls lead to;
* `Evaluation.cases_of_feed_error` — why a token fails;
* `Run.outcome_lex_ne_unexecutable` — neither an evaluation nor a compilation comes upon an operator
  that cannot be executed, except for brackets without a partner.
-/

namespace Reckon

open Machine

variable {α : Type}

namespace Machine

variable {r : Reducer α} {s t : State α} {result : EStateM.Result Error (State α) Unit}

theorem Attained.of_outcome (h : Attained r s) (hcall : Call r s result)
    (hresult : outcome result = .ok t) : Attained r t := by
  have hleft := h.call hcall
  cases result with
  | ok v t' =>
    cases hresult
    exact hleft
  | error e t' => cases hresult

theorem exists_of_outcome_error {e : Error} (h : outcome result = .error e) :
    ∃ t, result = .error e t := by
  cases result with
  | ok v t => cases h
  | error e' t =>
    cases h
    exact ⟨t, rfl⟩

/-- No transition for an operator comes upon one that cannot be executed. -/
theorem Attained.advance_ne (hr : r.Refuses) (h : Attained r s) (op op' : Operator) :
    advance r op s ≠ .error (.unexecutable op') := by
  intro hadvance
  obtain ⟨t, happly⟩ := exists_of_outcome_error hadvance
  exact (h.orderly hr).unexecutable op' t (.apply op happly)

end Machine

namespace Evaluation

variable {sem : Semantics α} {e e' : Evaluation α} {t : Token} {ts : List Token}

/-- If the state in front of a token is one that calls lead to, so is the state behind it. -/
theorem attained_feed (h : Attained sem.toReducer e.state) (hfeed : feed sem e t = .ok e') :
    Attained sem.toReducer e'.state := by
  cases takes_of_feed hfeed with
  | name _ _ _ => exact h.call (.pushOperand _ rfl)
  | number _ _ _ => exact h.call (.pushOperand _ rfl)
  | text _ _ => exact h.call (.pushOperand _ rfl)
  | marker _ _ => exact h
  | minus _ _ _ => exact h.call (.pushPrefix rfl)
  | operator _ _ _ hadvance => exact h.of_outcome (.apply _ rfl) hadvance

theorem attained_foldlM (h : Attained sem.toReducer e.state)
    (hfeed : ts.foldlM (feed sem) e = .ok e') : Attained sem.toReducer e'.state := by
  induction ts generalizing e with
  | nil =>
    cases hfeed
    exact h
  | cons t ts ih =>
    rw [List.foldlM_cons] at hfeed
    obtain ⟨f, hfirst, hrest⟩ := Except.exists_of_bind_eq_ok hfeed
    exact ih (attained_feed h hfirst) hrest

/-! ## Errors -/

/-- A token fails because its variable has no value, because its literal is out of range, because it
has no meaning where it stands, or as the transition for its operator fails. -/
theorem cases_of_feed_error {x : Error} (h : feed sem e t = .error x) :
    (∃ name, sem.resolve name = .error x) ∨ (∃ cause, x = .limit cause) ∨ x = unsupported t ∨
      ∃ op, advance sem.toReducer op e.state = .error x := by
  cases hmarker : e.marker with
  | some m =>
    rw [feed_of_marker_some sem t hmarker] at h
    split at h
    · rcases Except.cases_of_bind_eq_error h with hresolve | ⟨v, -, hpush⟩
      · exact Or.inl ⟨_, hresolve⟩
      · cases hpush
    · cases h
      exact Or.inr (Or.inr (Or.inl rfl))
  | none =>
    rw [feed_of_marker_none sem t hmarker, feedPlain_eq] at h
    cases hrole : role t with
    | number =>
      rw [hrole] at h
      rcases Except.cases_of_bind_eq_error h with hvalue | ⟨y, -, hpush⟩
      · exact Or.inr (Or.inl (Comparison.limit_of_literal hvalue))
      · cases hpush
    | text =>
      rw [hrole] at h
      cases h
    | marker =>
      rw [hrole] at h
      cases h
    | operator op =>
      rw [hrole] at h
      dsimp only at h
      by_cases hminus : op = .minus ∧ e.awaitsOperand = true
      · obtain ⟨rfl, hawaits⟩ := hminus
        rw [feedOperator_minus _ _ hawaits] at h
        cases h
      · rw [feedOperator_eq_advance _ _ _ hminus] at h
        rcases Except.cases_of_bind_eq_error h with hadvance | ⟨s, -, hstate⟩
        · exact Or.inr (Or.inr (Or.inr ⟨op, hadvance⟩))
        · cases hstate
    | unsupported =>
      rw [hrole] at h
      cases h
      exact Or.inr (Or.inr (Or.inl rfl))

/-- Operators fail for reasons of their own, and variables for others than an operator that cannot be
executed. -/
structure Sound (sem : Semantics α) : Prop where
  refuses : sem.toReducer.Refuses
  resolve : ∀ name op, sem.resolve name ≠ .error (.unexecutable op)

variable {op : Operator}

theorem feed_ne_unexecutable (hsem : Sound sem) (h : Attained sem.toReducer e.state) :
    feed sem e t ≠ .error (.unexecutable op) := by
  intro hfeed
  rcases cases_of_feed_error hfeed with ⟨name, hresolve⟩ | ⟨cause, hcause⟩ | htoken | ⟨op', h'⟩
  · exact hsem.resolve name op hresolve
  · cases hcause
  · cases htoken
  · exact h.advance_ne hsem.refuses op' op h'

theorem foldlM_ne_unexecutable (hsem : Sound sem) (h : Attained sem.toReducer e.state) :
    ts.foldlM (feed sem) e ≠ .error (.unexecutable op) := by
  intro hfeed
  induction ts generalizing e with
  | nil => cases hfeed
  | cons t ts ih =>
    rw [List.foldlM_cons] at hfeed
    rcases Except.cases_of_bind_eq_error hfeed with hfirst | ⟨f, hfirst, hrest⟩
    · exact feed_ne_unexecutable hsem h hfirst
    · exact ih (attained_feed h hfirst) hrest

theorem conclude_ne_unexecutable (hsem : Sound sem) (h : Attained sem.toReducer e.state) :
    e.conclude sem ≠ .error (.unexecutable op) := by
  intro hconclude
  unfold conclude at hconclude
  split at hconclude
  · cases hconclude
  · rcases Except.cases_of_bind_eq_error hconclude with hfinish | ⟨p, -, hvalue⟩
    · unfold Machine.run at hfinish
      split at hfinish
      · cases hfinish
      · cases hfinish
        exact (h.orderly hsem.refuses).finished op _ ‹_›
    · cases hvalue

end Evaluation

namespace Run

open Evaluation

variable [Capacity] {k : Run} {r : Reading} {op : Operator}

theorem sound_semantics (k : Run) : Sound k.semantics where
  refuses := by
    cases k with
    | direct b => exact refuses_concrete
    | compilation => exact refuses_deferral
  resolve name op hresolve := by
    cases isVerdict_of_fails (.resolution hresolve)

/-- An evaluation or a compilation does not come upon an operator that cannot be executed, unless it
is a bracket without a partner, which has an error of its own. -/
theorem outcome_ne_unexecutable (k : Run) (hfailure : r.failure ≠ some (.unexecutable op)) :
    k.outcome r ≠ .error (.unexecutable op) := by
  intro h
  rw [Run.outcome, ofReading_eq] at h
  rcases Except.cases_of_bind_eq_error h with hfold | ⟨e, hfold, hend⟩
  · exact foldlM_ne_unexecutable (sound_semantics k) .empty hfold
  · cases hr : r.failure with
    | some failure =>
      rw [hr] at hend
      cases hend
      exact hfailure hr
    | none =>
      rw [hr] at hend
      exact conclude_ne_unexecutable (sound_semantics k) (attained_foldlM .empty hfold) hend

/-- So it is for every source text. -/
theorem outcome_lex_ne_unexecutable (k : Run) (source : String) (op : Operator) :
    k.outcome (Token.lex source) ≠ .error (.unexecutable op) := by
  refine k.outcome_ne_unexecutable fun hfailure => ?_
  obtain ⟨fault, place, herror⟩ := Token.lexical_of_lexFrom hfailure
  cases herror

end Run

end Reckon

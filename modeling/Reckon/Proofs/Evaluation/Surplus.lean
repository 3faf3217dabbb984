import Reckon.Proofs.Evaluation.Piece

/-!
# Surplus — what is left when everything is executed

An evaluation that comes to its last step, in which the only operand is taken for the result, has
executed every operator of the tokens once.  How many operands are left is then a matter of counting
tokens: each literal and each variable brings one, and each operator between operands takes one.

* `Evaluation.beforeResult` — the state of the machine before the last step;
* `Evaluation.executed_once` — what has been executed by then, what is left, and what comes of it.
-/

namespace Reckon
namespace Evaluation

open Machine

variable {α : Type}

/-- The machine before the last step of an evaluation: all tokens are read and everything that can
be reduced is reduced. -/
def beforeResult (sem : Semantics α) (ts : List Token) : Except Error (State α) := do
  let e ← ts.foldlM (feed sem) start
  match e.marker with
  | some t => throw (unsupported t)
  | none => do
    let (_, s) ← (drain sem.toReducer).run e.state
    return s

/-- The last step is all that is missing. -/
theorem ofReading_eq_result (sem : Semantics α) (ts : List Token) :
    ofReading sem ⟨ts, none⟩ =
      beforeResult sem ts >>= fun s => (result.run s).map Prod.fst := by
  rw [ofReading_eq, beforeResult, bind_assoc]
  congr 1
  funext e
  dsimp only
  cases hmarker : e.marker with
  | some t =>
    rw [conclude_of_marker_some sem hmarker]
    rfl
  | none =>
    simp only [conclude, hmarker, finish, run_bind]
    cases (drain sem.toReducer).run e.state with
    | error e =>
      rfl
    | ok p =>
      change (result.run p.2 >>= fun q => .ok q.1) = (result.run p.2).map Prod.fst
      cases result.run p.2 <;> rfl

theorem result_of_ne_one {s : State α} (h : s.operands.length ≠ 1) :
    (result.run s).map Prod.fst = .error (.noResult s.operands.length) := by
  obtain ⟨operands, ops⟩ := s
  rcases operands with _ | ⟨v, _ | ⟨w, below⟩⟩
  · rfl
  · exact absurd rfl h
  · rfl

theorem exists_result_iff {s : State α} :
    (∃ v, (result.run s).map Prod.fst = .ok v) ↔ s.operands.length = 1 := by
  constructor
  · rintro ⟨v, hv⟩
    refine Decidable.byContradiction fun hne => ?_
    rw [result_of_ne_one hne] at hv
    cases hv
  · obtain ⟨operands, ops⟩ := s
    intro h
    obtain ⟨v, rfl⟩ := List.length_eq_one_iff.1 h
    exact ⟨v, rfl⟩

/-- A drained machine has reduced everything, and no operator is left. -/
theorem settle_of_drain {r : Reducer α} {s t : State α} (h : (drain r).run s = .ok ((), t)) :
    settle r Operator.executable s = .ok t ∧ t.operators = [] := by
  rw [drain, run_bind] at h
  obtain ⟨⟨_, u⟩, hreduce, hexpect⟩ := Except.exists_of_bind_eq_ok h
  have hsettle : settle r Operator.executable s = .ok u := outcome_of_run hreduce
  obtain ⟨operands, ops⟩ := u
  rcases ops with _ | ⟨_ | (_ | _) | _, ops⟩
  · cases hexpect
    exact ⟨hsettle, rfl⟩
  · cases hexpect
  · cases hexpect
  · cases hexpect
  · cases hexpect

/-- Before the last step no operator is left, the last token is no marker, and all that has come in
is on the books. -/
theorem ledger_of_beforeResult {sem : Semantics α} {ts : List Token} {s : State α}
    (h : beforeResult sem ts = .ok s) :
    s.operators = [] ∧ .unknown ∉ pieces ts ∧ (pieces ts).getLast? ≠ some .marker ∧
      Ledger .empty (Piece.operators (pieces ts)) ((pieces ts).countP Piece.isOperand)
        (traced sem ⟨ts, none⟩).steps s := by
  obtain ⟨e, hfold, hend⟩ := Except.exists_of_bind_eq_ok h
  cases hmarker : e.marker with
  | some t =>
    simp only [hmarker] at hend
    cases hend
  | none =>
    simp only [hmarker] at hend
    obtain ⟨⟨_, t⟩, hdrain, hend⟩ := Except.exists_of_bind_eq_ok hend
    cases hend
    obtain ⟨hsettle, hnone⟩ := settle_of_drain hdrain
    rw [← result_foldlM_tracedFeed] at hfold
    rw [← result_tracedSettle] at hsettle
    obtain ⟨hknown, hbehind, hledger⟩ := Piece.ledger_of_foldlM Piece.behind_start hfold
    refine ⟨hnone, hknown, hbehind.of_marker_none hmarker, ?_⟩
    -- the steps of the whole run are those of the tokens and those of the drain
    have hsteps : (traced sem ⟨ts, none⟩).steps =
        (ts.foldlM (tracedFeed sem) start).steps ++
          (tracedSettle sem.toReducer Operator.executable e.state.operators
            e.state.operands).steps := by
      unfold traced
      rw [Traced.bind_eq_of_ok _ hfold]
      simp only [tracedConclude, hmarker]
      rw [Traced.bind_eq_of_ok _ hsettle, Traced.steps_ofExcept, List.append_nil]
    rw [hsteps]
    have hboth := hledger.trans (ledger_settle hsettle)
    rw [List.append_nil] at hboth
    exact hboth

/-- All operators of the tokens have been executed by then, and no others. -/
theorem executed_of_beforeResult {sem : Semantics α} {ts : List Token} {s : State α}
    (h : beforeResult sem ts = .ok s) :
    (executed (traced sem ⟨ts, none⟩).steps).Perm
      ((Piece.operators (pieces ts)).filter Operator.executable) := by
  obtain ⟨hnone, -, -, hledger⟩ := ledger_of_beforeResult h
  simpa [hnone, State.empty] using hledger.operators

/-- Each operator between operands has taken one operand away. -/
theorem length_of_beforeResult {sem : Semantics α} {ts : List Token} {s : State α}
    (h : beforeResult sem ts = .ok s) :
    s.operands.length + (pieces ts).countP Piece.isBinary = (pieces ts).countP Piece.isOperand := by
  obtain ⟨-, -, -, hledger⟩ := ledger_of_beforeResult h
  have hoperands := hledger.operands
  rw [(executed_of_beforeResult h).countP_eq, Piece.countP_operators] at hoperands
  simpa [State.empty] using hoperands

/-- An evaluation that comes to its last step has executed every operator of its tokens once, the
minus signs in front of operands as functions, and has not executed anything else.  No operator is
left, and the literals and variables outnumber the operators between operands by the number of the
operands that are left.  There is a result if this is one operand; otherwise the error tells how
many there are. -/
theorem executed_once {sem : Semantics α} {ts : List Token} {s : State α}
    (h : beforeResult sem ts = .ok s) :
    s.operators = [] ∧
      (executed (traced sem ⟨ts, none⟩).steps).Perm
        ((Piece.operators (pieces ts)).filter Operator.executable) ∧
      s.operands.length + (pieces ts).countP Piece.isBinary = (pieces ts).countP Piece.isOperand ∧
      ((∃ v, ofReading sem ⟨ts, none⟩ = .ok v) ↔
        (pieces ts).countP Piece.isOperand = (pieces ts).countP Piece.isBinary + 1) ∧
      ((pieces ts).countP Piece.isOperand ≠ (pieces ts).countP Piece.isBinary + 1 →
        ofReading sem ⟨ts, none⟩ = .error (.noResult
          ((pieces ts).countP Piece.isOperand - (pieces ts).countP Piece.isBinary))) := by
  have hcount := length_of_beforeResult h
  have hresult : ofReading sem ⟨ts, none⟩ = (result.run s).map Prod.fst := by
    rw [ofReading_eq_result, h, Except.bind_ok]
  have hone : s.operands.length = 1 ↔
      (pieces ts).countP Piece.isOperand = (pieces ts).countP Piece.isBinary + 1 := by
    omega
  refine ⟨(ledger_of_beforeResult h).1, executed_of_beforeResult h, hcount, ?_, ?_⟩
  · rw [hresult, exists_result_iff, hone]
  · intro hdifference
    rw [hresult, result_of_ne_one (mt hone.1 hdifference), ← hcount, Nat.add_sub_cancel]

/-- Two numbers and a variable, of which a product takes two. -/
theorem executed_once_of_surplus :
    ∃ (ts : List Token) (s : State Value),
      beforeResult (Semantics.direct .unknownVariable [("x", .number 4)]) ts = .ok s ∧
        pieces ts = [.minus, .literal, .binary .mul, .marker, .name, .literal] ∧
        (executed (traced (Semantics.direct .unknownVariable [("x", .number 4)])
          ⟨ts, none⟩).steps).Perm [.opposite, .binary .mul] ∧
        evaluateTokens ts [("x", .number 4)] = .error (.noResult 2) := by
  let ts := (Token.lex "-2 * $x 3").tokens
  have hpieces : pieces ts = [.minus, .literal, .binary .mul, .marker, .name, .literal] := by
    decide +kernel
  have hok : (beforeResult (Semantics.direct .unknownVariable [("x", .number 4)]) ts).isOk =
      true := by
    decide +kernel
  obtain ⟨s, hbefore⟩ := Except.exists_of_isOk hok
  obtain ⟨-, hexecuted, -, -, herror⟩ := executed_once hbefore
  rw [hpieces] at hexecuted herror
  exact ⟨ts, s, hbefore, hpieces, hexecuted, herror (by decide)⟩

end Evaluation
end Reckon

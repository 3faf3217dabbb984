import Reckon.Proofs.Evaluation.Feed

/-!
# Suspension — operands that are computed later

An evaluation can put off all of its work: instead of values it keeps the outcomes that are still to
be had, and an operator only says how the outcome of its result comes from those of its operands.
Such an evaluation fails for reasons of grammar only.  If it goes through, the one outcome that is
left is the outcome of the evaluation that does its work at once.

* `Semantics.suspended` — the semantics on outcomes;
* `Machine.force` — the state that is had by computing the outcomes, from the bottom to the top;
* `Evaluation.ofReading_of_suspended` — both evaluations come to the same.

The order from the bottom to the top is the order in which operands come about, so the error that is
met first is the same.
-/

namespace Reckon

variable {α : Type}

/-- The semantics whose operands are the outcomes of those of another one. -/
def Semantics.suspended (sem : Semantics α) : Semantics (Except Error α) where
  binary op o o' := .ok (o >>= fun v => o' >>= fun w => sem.binary op v w)
  function f o := .ok (o >>= fun v => sem.function f v)
  number x := .ok (sem.number x)
  text s := .ok (sem.text s)
  resolve name := .ok (sem.resolve name)

namespace Machine

/-! ## Forcing -/

/-- The operands that are had by computing outcomes from the bottom to the top. -/
def forceOperands : Stack (Except Error α) → Except Error (Stack α)
  | [] => .ok []
  | o :: below => do
    let vs ← forceOperands below
    return (← o) :: vs

/-- The state that is had by computing outcomes. -/
def force (s : State (Except Error α)) : Except Error (State α) :=
  forceOperands s.operands >>= fun operands => .ok ⟨operands, s.operators⟩

theorem forceOperands_cons (o : Except Error α) (below : Stack (Except Error α)) :
    forceOperands (o :: below) =
      forceOperands below >>= fun vs => o >>= fun v => .ok (v :: vs) := rfl

theorem force_withOperator (s : State (Except Error α)) (op : Operator) :
    force (s.withOperator op) = force s >>= fun t => .ok (t.withOperator op) := by
  simp only [force, bind_assoc]
  rfl

theorem force_withOperand (s : State (Except Error α)) (o : Except Error α) :
    force (s.withOperand o) = force s >>= fun t => o >>= fun v => .ok (t.withOperand v) := by
  simp only [force, State.withOperand, Stack.push, forceOperands_cons, bind_assoc]
  rfl

variable (sem : Semantics α)

theorem force_perform {op : Operator} {os os' : Stack (Except Error α)}
    (h : perform sem.suspended.toReducer op os = .ok os') :
    (forceOperands os >>= perform sem.toReducer op) = forceOperands os' := by
  cases op with
  | bracket side =>
    rw [perform_bracket] at h
    cases h
  | function f =>
    cases os with
    | nil =>
      cases h
    | cons o below =>
      -- the outcome of the operand is computed just before the function is, behind those below it
      rw [perform_function] at h
      cases h
      simp only [forceOperands_cons, bind_assoc, Except.bind_ok, perform_function]
      rfl
  | binary op =>
    rcases os with _ | ⟨o', _ | ⟨o, below⟩⟩
    · cases h
    · cases h
    · rw [perform_binary] at h
      cases h
      simp only [forceOperands_cons, bind_assoc, Except.bind_ok, perform_binary]
      rfl

theorem force_settle {p : Operator → Bool} {s t : State (Except Error α)}
    (h : settle sem.suspended.toReducer p s = .ok t) :
    (force s >>= settle sem.toReducer p) = force t := by
  obtain ⟨os, ops⟩ := s
  -- the operators are the same on both sides, so both stop at the same one
  induction ops generalizing os with
  | nil =>
    cases h
    simp only [force, bind_assoc, Except.bind_ok, settle_nil]
  | cons op ops ih =>
    cases hp : p op with
    | false =>
      rw [settle_cons_of_false _ ops os hp] at h
      cases h
      simp only [force, bind_assoc, Except.bind_ok, settle_cons_of_false _ ops _ hp]
    | true =>
      rw [settle_cons_of_true _ ops os hp] at h
      obtain ⟨os', hperform, h⟩ := Except.exists_of_bind_eq_ok h
      rw [← ih os' h]
      simp only [force, bind_assoc, Except.bind_ok, settle_cons_of_true _ ops _ hp]
      rw [← force_perform sem hperform, bind_assoc]

theorem force_close {op : Operator} {s t : State (Except Error α)}
    (h : close sem.suspended.toReducer op s = .ok t) :
    (force s >>= close sem.toReducer op) = force t := by
  obtain ⟨os, ops⟩ := s
  -- closing a bracket without a call leaves the operands alone
  have hplain : ∀ ops', (∀ vs, close sem.toReducer op ⟨vs, ops⟩ = .ok ⟨vs, ops'⟩) →
      t = ⟨os, ops'⟩ → (force ⟨os, ops⟩ >>= close sem.toReducer op) = force t := by
    rintro ops' hclose rfl
    simp only [force, bind_assoc, Except.bind_ok, hclose]
  rcases ops with _ | ⟨_ | (_ | _) | _, _ | ⟨_ | _ | f, ops⟩⟩
  all_goals try cases h
  · exact hplain [] (fun _ => rfl) rfl
  · exact hplain _ (fun _ => rfl) rfl
  · exact hplain _ (fun _ => rfl) rfl
  · change (perform sem.suspended.toReducer (.function f) os).map (⟨·, ops⟩) = .ok t at h
    cases hperform : perform sem.suspended.toReducer (.function f) os with
    | error e =>
      rw [hperform] at h
      cases h
    | ok os' =>
      rw [hperform] at h
      cases h
      -- the call is performed on the forced operands, and the bracket is gone either way
      have hclose : ∀ vs, close sem.toReducer op ⟨vs, .bracket .left :: .function f :: ops⟩ =
          perform sem.toReducer (.function f) vs >>= fun vs => .ok ⟨vs, ops⟩ := by
        intro vs
        change (perform sem.toReducer (.function f) vs).map _ = _
        cases perform sem.toReducer (.function f) vs <;> rfl
      simp only [force, bind_assoc, Except.bind_ok, hclose]
      rw [← force_perform sem hperform, bind_assoc]

theorem force_advance {op : Operator} {s t : State (Except Error α)}
    (h : advance sem.suspended.toReducer op s = .ok t) :
    (force s >>= advance sem.toReducer op) = force t := by
  match op with
  | .function f =>
    rw [advance_function] at h
    obtain rfl := Except.ok.inj h
    rw [force_withOperator]
    rfl
  | .bracket .left =>
    rw [advance_left] at h
    obtain rfl := Except.ok.inj h
    rw [force_withOperator]
    rfl
  | .binary op =>
    rw [advance_binary] at h
    obtain ⟨u, hsettle, h⟩ := Except.exists_of_bind_eq_ok h
    obtain rfl := Except.ok.inj h
    rw [force_withOperator, ← force_settle sem hsettle, bind_assoc]
    congr 1
    funext v
    exact advance_binary _ _ _
  | .bracket .right =>
    rw [advance_right] at h
    obtain ⟨u, hsettle, h⟩ := Except.exists_of_bind_eq_ok h
    rw [← force_close sem h, ← force_settle sem hsettle, bind_assoc]
    congr 1
    funext v
    exact advance_right _ _

theorem force_final {s : State (Except Error α)} {o : Except Error α} (h : final s = .ok o) :
    (force s >>= final) = o := by
  obtain ⟨os, ops⟩ := s
  rcases ops with _ | ⟨_ | (_ | _) | _, ops⟩
  · rcases os with _ | ⟨o', _ | ⟨o'', below⟩⟩
    · cases h
    · cases h
      cases o <;> rfl
    · cases h
  all_goals cases h

end Machine

namespace Evaluation

open Machine

/-- The evaluation that is had by computing outcomes. -/
def forced (e : Evaluation (Except Error α)) : Except Error (Evaluation α) :=
  force e.state >>= fun state => .ok ⟨state, e.awaitsOperand, e.marker⟩

variable (sem : Semantics α)

theorem forced_withOperand (e : Evaluation (Except Error α)) (o : Except Error α) :
    (e.withOperand o).forced = e.forced >>= fun e' => o >>= fun v => .ok (e'.withOperand v) := by
  have hstate : (e.withOperand o).state = e.state.withOperand o := rfl
  unfold forced
  rw [hstate, force_withOperand]
  simp only [bind_assoc, Except.bind_ok]
  rfl

theorem forced_feedPlain {e e' : Evaluation (Except Error α)} {t : Token} (hm : e.marker = none)
    (h : feedPlain sem.suspended e t = .ok e') :
    (e.forced >>= fun e => feed sem e t) = e'.forced := by
  have hfeed : ∀ state : State α, feed sem ⟨state, e.awaitsOperand, e.marker⟩ t =
      feedPlain sem ⟨state, e.awaitsOperand, e.marker⟩ t := fun _ => feed_of_marker_none sem t hm
  have hstart : (e.forced >>= fun e => feed sem e t) =
      force e.state >>= fun state => feedPlain sem ⟨state, e.awaitsOperand, e.marker⟩ t := by
    simp only [forced, bind_assoc, Except.bind_ok, hfeed]
  rw [hstart]
  rw [feedPlain_eq] at h
  simp only [feedPlain_eq]
  cases hrole : role t with
  | number =>
    simp only [hrole] at h
    obtain ⟨x, hx, h⟩ := Except.exists_of_bind_eq_ok h
    obtain rfl := Except.ok.inj h
    rw [forced_withOperand]
    simp only [forced, hx, bind_assoc, Except.bind_ok]
    rfl
  | text =>
    simp only [hrole] at h
    obtain rfl := Except.ok.inj h
    rw [forced_withOperand]
    simp only [forced, bind_assoc, Except.bind_ok]
    rfl
  | marker =>
    simp only [hrole] at h
    obtain rfl := Except.ok.inj h
    rfl
  | unsupported =>
    simp only [hrole] at h
    cases h
  | operator op =>
    simp only [hrole] at h
    -- whether a minus stands in front of its operand does not depend on the operands
    by_cases hminus : op = .minus ∧ e.awaitsOperand = true
    · obtain ⟨rfl, hawaits⟩ := hminus
      rw [feedOperator_minus _ _ hawaits] at h
      obtain rfl := Except.ok.inj h
      have hoperator : ∀ state : State α,
          feedOperator sem.toReducer ⟨state, e.awaitsOperand, e.marker⟩ .minus =
            .ok ⟨state.withOperator .opposite, true, e.marker⟩ :=
        fun state => feedOperator_minus _ _ hawaits
      simp only [hoperator, forced, force_withOperator, bind_assoc, Except.bind_ok]
    · rw [feedOperator_eq_advance _ _ _ hminus] at h
      obtain ⟨state, hadvance, h⟩ := Except.exists_of_bind_eq_ok h
      obtain rfl := Except.ok.inj h
      have hoperator : ∀ state : State α,
          feedOperator sem.toReducer ⟨state, e.awaitsOperand, e.marker⟩ op =
            advance sem.toReducer op state >>= fun state => .ok ⟨state, opensOperand op, e.marker⟩ :=
        fun state => feedOperator_eq_advance _ _ _ hminus
      simp only [hoperator, forced]
      rw [← force_advance sem hadvance, bind_assoc]

theorem forced_feed {e e' : Evaluation (Except Error α)} {t : Token}
    (h : feed sem.suspended e t = .ok e') : (e.forced >>= fun e => feed sem e t) = e'.forced := by
  cases hm : e.marker with
  | none =>
    rw [feed_of_marker_none _ t hm] at h
    exact forced_feedPlain sem hm h
  | some m =>
    rw [feed_of_marker_some _ t hm] at h
    have hfeed : ∀ state : State α, feed sem ⟨state, e.awaitsOperand, e.marker⟩ t =
        if t.kind = .name then sem.resolve t.text >>= fun v =>
          .ok ((⟨state, e.awaitsOperand, e.marker⟩ : Evaluation α).withOperand v)
        else .error (unsupported t) := fun _ => feed_of_marker_some sem t hm
    by_cases hname : t.kind = .name
    · rw [if_pos hname] at h
      obtain rfl := Except.ok.inj h
      rw [forced_withOperand]
      simp only [forced, bind_assoc, Except.bind_ok, hfeed, if_pos hname]
    · rw [if_neg hname] at h
      cases h

theorem forced_foldlM {ts : List Token} {e e' : Evaluation (Except Error α)}
    (h : ts.foldlM (feed sem.suspended) e = .ok e') :
    (e.forced >>= fun e => ts.foldlM (feed sem) e) = e'.forced := by
  -- forcing behind every token is the same as forcing behind the last one
  induction ts generalizing e with
  | nil =>
    cases h
    exact bind_pure _
  | cons t ts ih =>
    rw [List.foldlM_cons] at h
    obtain ⟨u, hfeed, h⟩ := Except.exists_of_bind_eq_ok h
    rw [← ih h, ← forced_feed sem hfeed, bind_assoc]
    rfl

theorem forced_conclude {e : Evaluation (Except Error α)} {o : Except Error α}
    (h : e.conclude sem.suspended = .ok o) : (e.forced >>= fun e => e.conclude sem) = o := by
  cases hm : e.marker with
  | some m =>
    rw [conclude_of_marker_some _ hm] at h
    cases h
  | none =>
    rw [conclude_of_marker_none _ hm] at h
    obtain ⟨s, hsettle, h⟩ := Except.exists_of_bind_eq_ok h
    have hconclude : ∀ state : State α,
        (⟨state, e.awaitsOperand, e.marker⟩ : Evaluation α).conclude sem =
          settle sem.toReducer Operator.executable state >>= final :=
      fun _ => conclude_of_marker_none sem hm
    simp only [forced, bind_assoc, Except.bind_ok, hconclude]
    rw [← bind_assoc, force_settle sem hsettle]
    exact force_final h

/-- The outcome that a suspended evaluation is left with is that of the evaluation itself. -/
theorem ofReading_of_suspended {r : Reading} {o : Except Error α}
    (h : ofReading sem.suspended r = .ok o) : ofReading sem r = o := by
  rw [ofReading_eq] at h
  obtain ⟨e, hfold, h⟩ := Except.exists_of_bind_eq_ok h
  cases hfailure : r.failure with
  | some failure =>
    simp only [hfailure] at h
    cases h
  | none =>
    simp only [hfailure] at h
    rw [ofReading_eq]
    simp only [hfailure]
    -- there is nothing to be forced at the start
    have hstart : (start : Evaluation (Except Error α)).forced = .ok start := rfl
    have hfold' := forced_foldlM sem hfold
    rw [hstart, Except.bind_ok] at hfold'
    rw [hfold']
    exact forced_conclude sem h

end Evaluation

end Reckon

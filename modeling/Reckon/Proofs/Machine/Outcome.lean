import Reckon.Machine

/-!
# Outcome — transitions as functions on states

A transition that fails keeps the state that it has reached.  What a whole run comes to does not
depend on that state, so this file gives each transition as a function to the state behind it or to
the error:

* `Machine.perform` — one operator on the topmost operands;
* `Machine.settle` — reduction as long as a predicate holds;
* `Machine.advance` — the transition for an operator of any class;
* `Machine.final` — the operand that is left at the end.

Each of them has an equation by the shape of the stacks, and no later file unfolds a transition.
-/

namespace Reckon

/-! ## Errors as results -/

theorem Except.bind_ok {ε β γ : Type} (v : β) (f : β → Except ε γ) : (.ok v >>= f) = f v := rfl

theorem Except.exists_of_bind_eq_ok {ε β γ : Type} {o : Except ε β} {f : β → Except ε γ} {w : γ}
    (h : (o >>= f) = .ok w) : ∃ v, o = .ok v ∧ f v = .ok w := by
  cases o with
  | error e =>
    cases h
  | ok v =>
    exact ⟨v, rfl, h⟩

/-- What fails in two steps fails in the first one, or in the second one. -/
theorem Except.cases_of_bind_eq_error {ε β γ : Type} {o : Except ε β} {f : β → Except ε γ} {e : ε}
    (h : (o >>= f) = .error e) : o = .error e ∨ ∃ v, o = .ok v ∧ f v = .error e := by
  cases o with
  | error e' =>
    cases h
    exact Or.inl rfl
  | ok v =>
    exact Or.inr ⟨v, rfl, h⟩

/-- Computations that agree after mapping have the same error, or values that are mapped alike. -/
theorem Except.cases_of_map_eq {ε β γ δ : Type} {o : Except ε β} {o' : Except ε γ} {f : β → δ}
    {g : γ → δ} (h : o.map f = o'.map g) :
    (∃ e, o = .error e ∧ o' = .error e) ∨ ∃ v w, o = .ok v ∧ o' = .ok w ∧ f v = g w := by
  cases o with
  | error e =>
    cases o' with
    | error e' =>
      cases h
      exact Or.inl ⟨e, rfl, rfl⟩
    | ok w =>
      cases h
  | ok v =>
    cases o' with
    | error e' =>
      cases h
    | ok w =>
      exact Or.inr ⟨v, w, rfl, rfl, Except.ok.inj h⟩

theorem Except.toOption_eq_some {ε β : Type} {o : Except ε β} {v : β} :
    o.toOption = some v ↔ o = .ok v := by
  cases o <;> simp [Except.toOption]

theorem Except.exists_of_isOk {ε β : Type} {o : Except ε β} (h : o.isOk = true) :
    ∃ v, o = .ok v := by
  cases o with
  | error e =>
    cases h
  | ok v =>
    exact ⟨v, rfl⟩

/-- The error of a computation that fails. -/
def Except.error? {ε β : Type} : Except ε β → Option ε
  | .ok _ => none
  | .error e => some e

theorem Except.error?_eq_some {ε β : Type} {o : Except ε β} {e : ε} :
    Except.error? o = some e ↔ o = .error e := by
  cases o <;> simp [Except.error?]

namespace Machine

variable {α : Type}

/-- The state behind a success, or the error. -/
def outcome {σ β : Type} : EStateM.Result Error σ β → Except Error σ
  | .ok _ s => .ok s
  | .error e _ => .error e

theorem run_eq_outcome (m : Machine α Unit) (s : State α) :
    m.run s = (outcome (m s)).map fun t => ((), t) := by
  unfold run
  cases m s <;> rfl

theorem outcome_of_run {β : Type} {m : Machine α β} {s : State α} {p : β × State α}
    (h : m.run s = .ok p) : outcome (m s) = .ok p.2 := by
  unfold run at h
  cases hm : m s with
  | ok v t =>
    rw [hm] at h
    cases h
    rfl
  | error e t =>
    rw [hm] at h
    cases h

theorem run_bind {β γ : Type} (m : Machine α β) (k : β → Machine α γ) (s : State α) :
    (m >>= k).run s = m.run s >>= fun p => (k p.1).run p.2 := by
  change run (EStateM.bind m k) s = _
  unfold run EStateM.bind
  cases m s <;> rfl

theorem outcome_bind (m n : Machine α Unit) (s : State α) :
    outcome ((m >>= fun _ => n) s) = outcome (m s) >>= fun t => outcome (n t) := by
  change outcome (EStateM.bind m (fun _ => n) s) = _
  unfold EStateM.bind
  cases m s <;> rfl

/-- The state with one more operand. -/
def State.withOperand (s : State α) (v : α) : State α :=
  { s with operands := s.operands.push v }

/-- The state with one more operator. -/
def State.withOperator (s : State α) (op : Operator) : State α :=
  { s with operators := s.operators.push op }

/-! ## One operator -/

/-- The operands behind the execution of an operator. -/
def perform (r : Reducer α) (op : Operator) (operands : Stack α) : Except Error (Stack α) :=
  outcome (execute r op operands)

theorem perform_binary (r : Reducer α) (op : Binary) (x y : α) (below : Stack α) :
    perform r (.binary op) (y :: x :: below) = (r.binary op x y).map (· :: below) := by
  simp only [perform, execute]
  cases r.binary op x y <;> rfl

theorem perform_function (r : Reducer α) (f : Function) (x : α) (below : Stack α) :
    perform r (.function f) (x :: below) = (r.function f x).map (· :: below) := by
  simp only [perform, execute]
  cases r.function f x <;> rfl

@[simp] theorem perform_bracket (r : Reducer α) (side : Bracket) (operands : Stack α) :
    perform r (.bracket side) operands = .error (.limit .bracketExecuted) := by
  -- a bracket has no arity, so the operands are not even looked at
  unfold perform execute
  split <;> simp_all [outcome]

/-! ## Reduction -/

/-- The state in which the operator on top does not satisfy `p`. -/
def settle (r : Reducer α) (p : Operator → Bool) (s : State α) : Except Error (State α) :=
  outcome (reduce r p s)

@[simp] theorem settle_nil (r : Reducer α) (p : Operator → Bool) (operands : Stack α) :
    settle r p ⟨operands, []⟩ = .ok ⟨operands, []⟩ := rfl

theorem settle_cons_of_true (r : Reducer α) {p : Operator → Bool} {op : Operator}
    (ops : Stack Operator) (operands : Stack α) (h : p op = true) :
    settle r p ⟨operands, op :: ops⟩ =
      perform r op operands >>= fun operands => settle r p ⟨operands, ops⟩ := by
  simp only [settle, reduce, perform, reduceWhile, h, if_true]
  cases execute r op operands <;> rfl

theorem settle_cons_of_false (r : Reducer α) {p : Operator → Bool} {op : Operator}
    (ops : Stack Operator) (operands : Stack α) (h : p op = false) :
    settle r p ⟨operands, op :: ops⟩ = .ok ⟨operands, op :: ops⟩ := by
  simp only [settle, reduce, reduceWhile_of_not ops operands h]
  rfl

theorem settle_of_top {r : Reducer α} {p : Operator → Bool} {s : State α}
    (h : ∀ op, s.operators.top? = some op → p op = false) : settle r p s = .ok s := by
  obtain ⟨operands, ops⟩ := s
  cases ops with
  | nil =>
    rfl
  | cons op ops =>
    exact settle_cons_of_false r ops operands (h op rfl)

/-- What a stricter predicate reduces first, a weaker one would have reduced as well. -/
theorem settle_settle (r : Reducer α) {p q : Operator → Bool}
    (hpq : ∀ op, p op = true → q op = true) (s : State α) :
    (settle r p s >>= settle r q) = settle r q s := by
  obtain ⟨operands, ops⟩ := s
  -- the operators are taken from the top, and each changes the operands for those below
  induction ops generalizing operands with
  | nil =>
    rfl
  | cons op ops ih =>
    cases hp : p op with
    | false =>
      -- nothing was reduced first
      rw [settle_cons_of_false r ops operands hp]
      rfl
    | true =>
      rw [settle_cons_of_true r ops operands hp, settle_cons_of_true r ops operands (hpq op hp),
        bind_assoc]
      congr 1
      funext operands
      exact ih operands

theorem bind_settle (r : Reducer α) {p q : Operator → Bool}
    (hpq : ∀ op, p op = true → q op = true) (x : Except Error (State α)) :
    (x >>= settle r q) = (x >>= settle r p) >>= settle r q := by
  rw [bind_assoc]
  congr 1
  funext s
  exact (settle_settle r hpq s).symm

/-! ## Transitions -/

/-- The state behind the left bracket that a right bracket meets; `op` is the right bracket. -/
def close (r : Reducer α) (op : Operator) (s : State α) : Except Error (State α) :=
  match s.operators with
  | .bracket .left :: .function f :: ops =>
    (perform r (.function f) s.operands).map (⟨·, ops⟩)
  | .bracket .left :: ops => .ok { s with operators := ops }
  | _ => .error (.unmatchedBracket op)

/-- The state behind the transition for an operator. -/
def advance (r : Reducer α) (op : Operator) (s : State α) : Except Error (State α) :=
  outcome (apply r op s)

theorem advance_binary (r : Reducer α) (op : Binary) (s : State α) :
    advance r (.binary op) s =
      settle r (yieldsTo (.binary op)) s >>= fun t => .ok (t.withOperator (.binary op)) := by
  simp only [advance, apply, pushOperator, outcome_bind]
  rfl

@[simp] theorem advance_function (r : Reducer α) (f : Function) (s : State α) :
    advance r (.function f) s = .ok (s.withOperator (.function f)) := rfl

@[simp] theorem advance_left (r : Reducer α) (s : State α) :
    advance r (.bracket .left) s = .ok (s.withOperator (.bracket .left)) := rfl

theorem outcome_matchBracket (r : Reducer α) (op : Operator) (s : State α) :
    outcome ((matchBracket op >>= fun _ => callWaiting r) s) = close r op s := by
  obtain ⟨operands, ops⟩ := s
  rw [outcome_bind]
  -- only a left bracket with a function in front of it has a call waiting
  rcases ops with _ | ⟨_ | (_ | _) | _, _ | ⟨_ | _ | f, ops⟩⟩ <;> try rfl
  change outcome (executeTop r ⟨operands, .function f :: ops⟩) = _
  simp only [executeTop, close, perform]
  cases execute r (.function f) operands <;> rfl

theorem advance_right (r : Reducer α) (s : State α) :
    advance r (.bracket .right) s =
      settle r Operator.executable s >>= close r (.bracket .right) := by
  change outcome ((reduce r Operator.executable >>= fun _ =>
    matchBracket (.bracket .right) >>= fun _ => callWaiting r) s) = _
  rw [outcome_bind]
  congr 1
  funext t
  exact outcome_matchBracket r (.bracket .right) t

/-! ## The end -/

/-- The operand of a state without operators, if there is just one. -/
def final (s : State α) : Except Error α :=
  match s.operators with
  | [] =>
    match s.operands with
    | [v] => .ok v
    | operands => .error (.noResult operands.length)
  | .bracket .left :: _ => .error (.unmatchedBracket (.bracket .left))
  | op :: _ => .error (.unexecutable op)

theorem run_finish (r : Reducer α) (s : State α) :
    ((finish r).run s).map Prod.fst = settle r Operator.executable s >>= final := by
  change (run (EStateM.bind (EStateM.bind (reduce r Operator.executable)
    fun _ => expectNoOperators) fun _ => result) s).map Prod.fst = _
  unfold run settle EStateM.bind
  cases reduce r Operator.executable s with
  | error e t =>
    rfl
  | ok _ t =>
    obtain ⟨operands, ops⟩ := t
    -- an operator that is left decides before the operands are counted
    rcases ops with _ | ⟨_ | (_ | _) | _, ops⟩ <;> try rfl
    rcases operands with _ | ⟨v, _ | ⟨w, operands⟩⟩ <;> rfl

end Machine

end Reckon

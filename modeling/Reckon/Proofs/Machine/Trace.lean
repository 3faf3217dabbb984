import Reckon.Proofs.Machine.Outcome

/-!
# Trace — the steps of a machine

What a machine does to its operands comes in steps: a variable is resolved, or an operator is
executed on operands that are there.  A `Traced` computation is a computation with the steps that it
takes up to its end or up to the step that fails.  This file gives the reductions and transitions of
a machine in this form:

* `Machine.tracedPerform`, `Machine.tracedSettle`, `Machine.tracedClose`, `Machine.tracedAdvance`.

The results are those of the transitions themselves, so a trace only adds the view of the steps.
-/

namespace Reckon

/-- A step that can fail on account of what it works on. -/
inductive Step (α : Type) where
  | resolution (name : String)
  /-- The operands stand in the order in which they were pushed. -/
  | reduction (op : Operator) (operands : List α)
  deriving DecidableEq, Repr

/-- A computation with the steps that it takes. -/
structure Traced (α β : Type) where
  steps : List (Step α)
  result : Except Error β

namespace Traced

variable {α β γ δ : Type}

instance : Monad (Traced α) where
  pure v := ⟨[], .ok v⟩
  bind x f :=
    match x.result with
    | .ok v => ⟨x.steps ++ (f v).steps, (f v).result⟩
    | .error e => ⟨x.steps, .error e⟩

/-- A computation without steps. -/
def ofExcept (o : Except Error β) : Traced α β := ⟨[], o⟩

/-- An error that no step has made. -/
def fail (e : Error) : Traced α β := ofExcept (.error e)

/-- A single step. -/
def single (s : Step α) (o : Except Error β) : Traced α β := ⟨[s], o⟩

theorem bind_eq_of_ok {x : Traced α β} {v : β} (f : β → Traced α γ) (h : x.result = .ok v) :
    x >>= f = ⟨x.steps ++ (f v).steps, (f v).result⟩ := by
  simp only [bind, h]

theorem bind_eq_of_error {x : Traced α β} {e : Error} (f : β → Traced α γ)
    (h : x.result = .error e) : x >>= f = ⟨x.steps, .error e⟩ := by
  simp only [bind, h]

theorem pure_bind (v : β) (f : β → Traced α γ) : pure v >>= f = f v :=
  bind_eq_of_ok f rfl

theorem bind_pure (x : Traced α β) : x >>= pure = x := by
  obtain ⟨steps, result⟩ := x
  cases result with
  | error e =>
    rfl
  | ok v =>
    exact congrArg (Traced.mk · (.ok v)) (List.append_nil steps)

theorem bind_assoc (x : Traced α β) (f : β → Traced α γ) (g : γ → Traced α δ) :
    x >>= f >>= g = x >>= fun v => f v >>= g := by
  obtain ⟨steps, result⟩ := x
  cases result with
  | error e =>
    rfl
  | ok v =>
    -- the steps of the three parts stand behind each other in either way
    change (⟨steps ++ (f v).steps, (f v).result⟩ : Traced α γ) >>= g =
      ⟨steps ++ (f v >>= g).steps, (f v >>= g).result⟩
    cases h : (f v).result with
    | ok w =>
      rw [bind_eq_of_ok g h, bind_eq_of_ok g rfl, List.append_assoc]
    | error e =>
      rw [bind_eq_of_error g h, bind_eq_of_error g rfl]

theorem result_bind (x : Traced α β) (f : β → Traced α γ) :
    (x >>= f).result = x.result >>= fun v => (f v).result := by
  cases h : x.result with
  | ok v =>
    rw [bind_eq_of_ok f h]
    rfl
  | error e =>
    rw [bind_eq_of_error f h]
    rfl

/-- A sequence of computations that has a result takes the steps of both. -/
theorem exists_of_result_bind {x : Traced α β} {f : β → Traced α γ} {w : γ}
    (h : (x >>= f).result = .ok w) :
    ∃ v, x.result = .ok v ∧ (f v).result = .ok w ∧ (x >>= f).steps = x.steps ++ (f v).steps := by
  rw [result_bind] at h
  obtain ⟨v, hx, hv⟩ := Except.exists_of_bind_eq_ok h
  exact ⟨v, hx, hv, congrArg steps (bind_eq_of_ok f hx)⟩

/-- A step of a sequence of computations belongs to one of them. -/
theorem mem_steps_bind {x : Traced α β} {f : β → Traced α γ} {s : Step α} :
    s ∈ (x >>= f).steps ↔ s ∈ x.steps ∨ ∃ v, x.result = .ok v ∧ s ∈ (f v).steps := by
  cases h : x.result with
  | ok v =>
    rw [bind_eq_of_ok f h]
    simp
  | error e =>
    rw [bind_eq_of_error f h]
    simp

@[simp] theorem result_pure (v : β) : (pure v : Traced α β).result = .ok v := rfl

@[simp] theorem result_fail (e : Error) : (fail e : Traced α β).result = .error e := rfl

@[simp] theorem steps_pure (v : β) : (pure v : Traced α β).steps = [] := rfl

@[simp] theorem steps_ofExcept (o : Except Error β) : (ofExcept o : Traced α β).steps = [] := rfl

@[simp] theorem steps_fail (e : Error) : (fail e : Traced α β).steps = [] := rfl

@[simp] theorem steps_single (s : Step α) (o : Except Error β) : (single s o).steps = [s] := rfl

end Traced

namespace Machine

variable {α : Type}

/-! ## Transitions with their steps -/

/-- `perform` with its step. -/
def tracedPerform (r : Reducer α) : Operator → Stack α → Traced α (Stack α)
  | .binary op, y :: x :: below => do
    return (← .single (.reduction (.binary op) [x, y]) (r.binary op x y)) :: below
  | .function f, x :: below => do
    return (← .single (.reduction (.function f) [x]) (r.function f x)) :: below
  | .bracket _, _ => .fail (.limit .bracketExecuted)
  | op, _ => .fail (.insufficientOperands op)

/-- `settle` with its steps. -/
def tracedSettle (r : Reducer α) (p : Operator → Bool) :
    Stack Operator → Stack α → Traced α (State α)
  | [], operands => pure ⟨operands, []⟩
  | op :: ops, operands =>
    if p op then do
      let operands ← tracedPerform r op operands
      tracedSettle r p ops operands
    else pure ⟨operands, op :: ops⟩

/-- `close` with its step. -/
def tracedClose (r : Reducer α) (op : Operator) (s : State α) : Traced α (State α) :=
  match s.operators with
  | .bracket .left :: .function f :: ops => do
    let operands ← tracedPerform r (.function f) s.operands
    return ⟨operands, ops⟩
  | .bracket .left :: ops => pure { s with operators := ops }
  | _ => .fail (.unmatchedBracket op)

/-- `advance` with its steps. -/
def tracedAdvance (r : Reducer α) (op : Operator) (s : State α) : Traced α (State α) :=
  match op with
  | .binary op => do
    let t ← tracedSettle r (yieldsTo (.binary op)) s.operators s.operands
    return t.withOperator (.binary op)
  | .function f => pure (s.withOperator (.function f))
  | .bracket .left => pure (s.withOperator (.bracket .left))
  | .bracket .right => do
    let t ← tracedSettle r Operator.executable s.operators s.operands
    tracedClose r (.bracket .right) t

/-! ## Their results -/

@[simp] theorem result_tracedPerform (r : Reducer α) (op : Operator) (operands : Stack α) :
    (tracedPerform r op operands).result = perform r op operands := by
  match op, operands with
  | .binary op, y :: x :: below =>
    rw [perform_binary, tracedPerform, Traced.result_bind]
    cases r.binary op x y <;> rfl
  | .function f, x :: below =>
    rw [perform_function, tracedPerform, Traced.result_bind]
    cases r.function f x <;> rfl
  | .bracket _, _ =>
    rw [perform_bracket, tracedPerform, Traced.result_fail]
  | .binary op, [] =>
    rfl
  | .binary op, [_] =>
    rfl
  | .function f, [] =>
    rfl

@[simp] theorem result_tracedSettle (r : Reducer α) (p : Operator → Bool) (ops : Stack Operator)
    (operands : Stack α) : (tracedSettle r p ops operands).result = settle r p ⟨operands, ops⟩ := by
  -- both go down the operators in the same way, with the operands that each leaves behind
  induction ops generalizing operands with
  | nil =>
    rfl
  | cons op ops ih =>
    unfold tracedSettle
    cases hp : p op with
    | true =>
      rw [if_pos rfl, Traced.result_bind, result_tracedPerform, settle_cons_of_true r ops operands hp]
      congr 1
      funext operands
      exact ih operands
    | false =>
      rw [settle_cons_of_false r ops operands hp]
      rfl

@[simp] theorem result_tracedClose (r : Reducer α) (op : Operator) (s : State α) :
    (tracedClose r op s).result = close r op s := by
  obtain ⟨operands, ops⟩ := s
  -- all shapes of the operators but the one with a call are closed without a step
  rcases ops with _ | ⟨_ | (_ | _) | _, _ | ⟨_ | _ | f, ops⟩⟩ <;> try rfl
  simp only [tracedClose, close, Traced.result_bind, result_tracedPerform]
  cases perform r (.function f) operands <;> rfl

@[simp] theorem result_tracedAdvance (r : Reducer α) (op : Operator) (s : State α) :
    (tracedAdvance r op s).result = advance r op s := by
  obtain ⟨operands, ops⟩ := s
  rcases op with op | (_ | _) | f
  · simp only [tracedAdvance, Traced.result_bind, result_tracedSettle, advance_binary]
    rfl
  · rfl
  · simp only [tracedAdvance, Traced.result_bind, result_tracedSettle, result_tracedClose,
      advance_right]
  · rfl

/-! ## Their steps

A machine by itself resolves no variable.
-/

theorem resolution_notMem_tracedPerform (r : Reducer α) (op : Operator) (operands : Stack α)
    (name : String) : .resolution name ∉ (tracedPerform r op operands).steps := by
  unfold tracedPerform
  split <;> simp [Traced.mem_steps_bind]

theorem resolution_notMem_tracedSettle (r : Reducer α) (p : Operator → Bool) (ops : Stack Operator)
    (operands : Stack α) (name : String) :
    .resolution name ∉ (tracedSettle r p ops operands).steps := by
  induction ops generalizing operands with
  | nil =>
    simp [tracedSettle]
  | cons op ops ih =>
    unfold tracedSettle
    split
    · -- a step belongs to the operator on top or to those below it
      rw [Traced.mem_steps_bind]
      rintro (h | ⟨operands', _, h⟩)
      · exact resolution_notMem_tracedPerform r op operands name h
      · exact ih operands' h
    · simp

theorem resolution_notMem_tracedAdvance (r : Reducer α) (op : Operator) (s : State α)
    (name : String) : .resolution name ∉ (tracedAdvance r op s).steps := by
  unfold tracedAdvance
  split
  · rw [Traced.mem_steps_bind]
    rintro (h | ⟨t, _, h⟩)
    · exact resolution_notMem_tracedSettle r _ _ _ name h
    · simp at h
  · simp
  · simp
  · rw [Traced.mem_steps_bind]
    rintro (h | ⟨t, _, h⟩)
    · exact resolution_notMem_tracedSettle r _ _ _ name h
    · unfold tracedClose at h
      split at h
      · rw [Traced.mem_steps_bind] at h
        rcases h with h | ⟨u, _, h⟩
        · exact resolution_notMem_tracedPerform r _ _ name h
        · simp at h
      · simp at h
      · simp at h

end Machine

end Reckon

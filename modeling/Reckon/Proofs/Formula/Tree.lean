import Reckon.Proofs.Formula.Outcome
import Reckon.Proofs.Machine.Trace

/-!
# Tree — what a flat sequence is read as

A replay reads a flat sequence and executes its operators as it goes.  A machine that executes
nothing, and puts operators together with their operands instead, reads the same sequence as a tree.

* `Interpretation`, `Interpretation.replay` — what a machine makes of the elements of a sequence,
  and the replay that comes of it, step by step;
* `Formula.replay_eq_result` — the replay of a formula is such a replay;
* `Tree.ofSequence` — the tree that a sequence is read as;
* `Tree.run`, `Tree.replay_eq_run` — under every interpretation, a replay takes the steps of the
  tree: operands before operators, and from left to right.
-/

namespace Reckon

open Machine

/-- What a machine makes of constants, markers and operators. -/
structure Interpretation (α : Type) extends Reducer α where
  constant : Value → List (Option Nat) → α
  resolve : String → Except Error α

namespace Interpretation

variable {α : Type}

/-! ## Replays -/

/-- The state behind an element, with the steps that lead there. -/
def feed (i : Interpretation α) (s : State α) : Element → Traced α (State α)
  | .operator op => tracedAdvance i.toReducer op s
  | .constant v marks => pure (s.withOperand (i.constant v marks))
  | .marker name => do
    return s.withOperand (← .single (.resolution name) (i.resolve name))

/-- What a sequence comes to, with the steps that lead there. -/
def replay (i : Interpretation α) (es : List Element) : Traced α α := do
  let s ← es.foldlM i.feed .empty
  let t ← tracedSettle i.toReducer Operator.executable s.operators s.operands
  .ofExcept (final t)

/-- Operators are executed on values, and variables are taken from bindings. -/
def direct [Capacity] (b : Bindings) : Interpretation Value where
  toReducer := Semantics.concrete
  constant v _ := v
  resolve := b.resolve .unprovidedVariable

/-! ## Their results -/

/-- What a machine reads at an element. -/
def input (i : Interpretation α) : Element → Input α
  | .operator op => .operator op
  | .constant v marks => .operand (.ok (i.constant v marks))
  | .marker name => .operand (i.resolve name)

/-- What a machine reads at the elements of a sequence. -/
def inputs (i : Interpretation α) (es : List Element) : List (Input α) :=
  es.map i.input

theorem inputs_bracketed (i : Interpretation α) (wrap : Bool) (es : List Element) :
    i.inputs (Operand.bracketed wrap es) = wrapped wrap (i.inputs es) := by
  cases wrap with
  | false =>
    rfl
  | true =>
    exact List.map_append

theorem result_feed (i : Interpretation α) (s : State α) (e : Element) :
    (i.feed s e).result = feedInput i.toReducer s (i.input e) := by
  cases e with
  | operator op =>
    exact result_tracedAdvance _ op s
  | constant v marks =>
    rfl
  | marker name =>
    exact Traced.result_bind _ _

theorem result_foldlM (i : Interpretation α) (es : List Element) (s : State α) :
    (es.foldlM i.feed s).result = feedAll i.toReducer s (i.inputs es) := by
  induction es generalizing s with
  | nil =>
    rfl
  | cons e es ih =>
    change _ = feedInput i.toReducer s (i.input e) >>= fun t => feedAll i.toReducer t (i.inputs es)
    rw [List.foldlM_cons, Traced.result_bind, result_feed]
    congr 1
    funext t
    exact ih t

/-- A replay comes to what a machine makes of the inputs. -/
theorem result_replay (i : Interpretation α) (es : List Element) :
    (i.replay es).result = feedAll i.toReducer .empty (i.inputs es) >>= fun s =>
      settle i.toReducer Operator.executable s >>= final := by
  rw [replay, Traced.result_bind, result_foldlM]
  congr 1
  funext s
  rw [Traced.result_bind, result_tracedSettle]
  rfl

theorem inputs_direct [Capacity] (b : Bindings) (es : List Element) :
    (direct b).inputs es = Reckon.inputs (Semantics.direct .unprovidedVariable b) es := by
  refine List.map_congr_left fun e _ => ?_
  cases e <;> rfl

end Interpretation

/-- The replay of a formula is a replay with values. -/
theorem Formula.replay_eq_result [Capacity] (f : Formula) (b : Bindings) :
    f.replay b = ((Interpretation.direct b).replay f.sequence).result := by
  rw [replay_eq, Interpretation.result_replay, Interpretation.inputs_direct]
  rfl

/-! ## Trees -/

/-- Operators with the expressions that they are applied to; the leaves are constants and
markers. -/
inductive Tree where
  | constant (v : Value) (marks : List (Option Nat))
  | marker (name : String)
  | binary (op : Binary) (left right : Tree)
  | call (f : Function) (argument : Tree)
  deriving DecidableEq, Repr

/-- Nothing is executed: an operator is put together with its operands. -/
def Interpretation.building : Interpretation Tree where
  binary op t u := .ok (.binary op t u)
  function f t := .ok (.call f t)
  constant := .constant
  resolve name := .ok (.marker name)

namespace Tree

open Interpretation

variable {α : Type}

/-- The tree that a sequence is read as. -/
def ofSequence (es : List Element) : Except Error Tree :=
  (building.replay es).result

/-- The markers at the leaves of a tree, from left to right. -/
def markers : Tree → List String
  | .constant .. => []
  | .marker name => [name]
  | .binary _ t u => t.markers ++ u.markers
  | .call _ t => t.markers

/-- The operators of a tree executed, each of them behind its operands. -/
def run (i : Interpretation α) : Tree → Traced α α
  | .constant v marks => pure (i.constant v marks)
  | .marker name => .single (.resolution name) (i.resolve name)
  | .binary op t u =>
    t.run i >>= fun v => u.run i >>= fun w =>
      .single (.reduction (.binary op) [v, w]) (i.binary op v w)
  | .call f t => t.run i >>= fun v => .single (.reduction (.function f) [v]) (i.function f v)

/-! ## States of trees -/

/-- The operands that are had by running trees, from the bottom to the top. -/
def runOperands (i : Interpretation α) : Stack Tree → Traced α (Stack α)
  | [] => pure []
  | t :: below => runOperands i below >>= fun vs => t.run i >>= fun v => pure (v :: vs)

/-- The state that is had by running the trees of a state. -/
def runState (i : Interpretation α) (s : State Tree) : Traced α (State α) :=
  runOperands i s.operands >>= fun operands => pure ⟨operands, s.operators⟩

theorem runState_withOperator (i : Interpretation α) (s : State Tree) (op : Operator) :
    runState i (s.withOperator op) = runState i s >>= fun t => pure (t.withOperator op) := by
  simp only [runState, Traced.bind_assoc, Traced.pure_bind]
  rfl

theorem runState_withOperand (i : Interpretation α) (s : State Tree) (t : Tree) :
    runState i (s.withOperand t) =
      runState i s >>= fun u => t.run i >>= fun v => pure (u.withOperand v) := by
  simp only [runState, State.withOperand, Stack.push, runOperands, Traced.bind_assoc,
    Traced.pure_bind]

theorem run_perform (i : Interpretation α) {op : Operator} {ts ts' : Stack Tree}
    (h : perform building.toReducer op ts = .ok ts') :
    runOperands i ts >>= tracedPerform i.toReducer op = runOperands i ts' := by
  cases op with
  | bracket side =>
    rw [perform_bracket] at h
    cases h
  | function f =>
    cases ts with
    | nil =>
      cases h
    | cons t below =>
      -- the operand is computed just before the function is, behind those below it
      rw [perform_function] at h
      cases h
      simp only [runOperands, run, Traced.bind_assoc, Traced.pure_bind]
      rfl
  | binary op =>
    rcases ts with _ | ⟨u, _ | ⟨t, below⟩⟩
    · cases h
    · cases h
    · rw [perform_binary] at h
      cases h
      simp only [runOperands, run, Traced.bind_assoc, Traced.pure_bind]
      rfl

theorem run_settle (i : Interpretation α) {p : Operator → Bool} {ops : Stack Operator}
    {ts : Stack Tree} {s : State Tree} (h : settle building.toReducer p ⟨ts, ops⟩ = .ok s) :
    (runOperands i ts >>= fun vs => tracedSettle i.toReducer p ops vs) = runState i s := by
  -- the operators are the same on both sides, so both stop at the same one
  induction ops generalizing ts with
  | nil =>
    cases h
    rfl
  | cons op ops ih =>
    cases hp : p op with
    | false =>
      rw [settle_cons_of_false _ ops ts hp] at h
      cases h
      simp only [tracedSettle, hp]
      rfl
    | true =>
      rw [settle_cons_of_true _ ops ts hp] at h
      obtain ⟨ts', hperform, h⟩ := Except.exists_of_bind_eq_ok h
      rw [← ih h, ← run_perform i hperform, Traced.bind_assoc]
      simp only [tracedSettle, hp, if_true]

theorem run_settleState (i : Interpretation α) {p : Operator → Bool} {s t : State Tree}
    (h : settle building.toReducer p s = .ok t) :
    (runState i s >>= fun u => tracedSettle i.toReducer p u.operators u.operands) =
      runState i t := by
  rw [← run_settle i h]
  simp only [runState, Traced.bind_assoc, Traced.pure_bind]

theorem run_close (i : Interpretation α) {op : Operator} {s t : State Tree}
    (h : close building.toReducer op s = .ok t) :
    runState i s >>= tracedClose i.toReducer op = runState i t := by
  obtain ⟨ts, ops⟩ := s
  -- a closed bracket changes the operands only if a call waits in front of it
  rcases ops with _ | ⟨_ | (_ | _) | _, _ | ⟨_ | _ | f, ops⟩⟩
  all_goals try cases h
  iterate 3
    · simp only [runState, Traced.bind_assoc, Traced.pure_bind]
      rfl
  · change (perform building.toReducer (.function f) ts).map (⟨·, ops⟩) = .ok t at h
    cases hperform : perform building.toReducer (.function f) ts with
    | error e =>
      rw [hperform] at h
      cases h
    | ok ts' =>
      rw [hperform] at h
      cases h
      simp only [runState, Traced.bind_assoc, Traced.pure_bind]
      rw [← run_perform i hperform, Traced.bind_assoc]
      rfl

theorem run_advance (i : Interpretation α) {op : Operator} {s t : State Tree}
    (h : advance building.toReducer op s = .ok t) :
    runState i s >>= tracedAdvance i.toReducer op = runState i t := by
  match op with
  | .function f =>
    rw [advance_function] at h
    obtain rfl := Except.ok.inj h
    rw [runState_withOperator]
    rfl
  | .bracket .left =>
    rw [advance_left] at h
    obtain rfl := Except.ok.inj h
    rw [runState_withOperator]
    rfl
  | .binary op =>
    rw [advance_binary] at h
    obtain ⟨u, hu, h⟩ := Except.exists_of_bind_eq_ok h
    obtain rfl := Except.ok.inj h
    rw [runState_withOperator, ← run_settleState i hu, Traced.bind_assoc]
    rfl
  | .bracket .right =>
    rw [advance_right] at h
    obtain ⟨u, hu, h⟩ := Except.exists_of_bind_eq_ok h
    rw [← run_close i h, ← run_settleState i hu, Traced.bind_assoc]
    rfl

/-! ## Replays of trees -/

theorem run_feed (i : Interpretation α) {e : Element} {s t : State Tree}
    (h : (building.feed s e).result = .ok t) :
    (runState i s >>= fun u => i.feed u e) = runState i t := by
  cases e with
  | operator op =>
    exact run_advance i ((result_tracedAdvance _ op s).symm.trans h)
  | constant v marks =>
    cases h
    exact (runState_withOperand i s (.constant v marks)).symm
  | marker name =>
    cases h
    exact (runState_withOperand i s (.marker name)).symm

theorem run_foldlM (i : Interpretation α) {es : List Element} {s t : State Tree}
    (h : (es.foldlM building.feed s).result = .ok t) :
    (runState i s >>= fun u => es.foldlM i.feed u) = runState i t := by
  -- running the trees behind every element is the same as running them behind the last one
  induction es generalizing s with
  | nil =>
    cases h
    exact Traced.bind_pure _
  | cons e es ih =>
    rw [List.foldlM_cons, Traced.result_bind] at h
    obtain ⟨u, hfeed, h⟩ := Except.exists_of_bind_eq_ok h
    rw [← ih h, ← run_feed i hfeed, Traced.bind_assoc]
    simp only [List.foldlM_cons]

theorem run_final (i : Interpretation α) {s : State Tree} {t : Tree} (h : final s = .ok t) :
    (runState i s >>= fun u => .ofExcept (final u)) = t.run i := by
  obtain ⟨ts, ops⟩ := s
  rcases ops with _ | ⟨_ | (_ | _) | _, ops⟩
  · rcases ts with _ | ⟨t', _ | ⟨u, below⟩⟩
    · cases h
    · cases h
      simp only [runState, runOperands, Traced.bind_assoc, Traced.pure_bind]
      exact Traced.bind_pure _
    · cases h
  all_goals cases h

/-- A replay takes the steps of the tree that its sequence is read as. -/
theorem replay_eq_run {es : List Element} {t : Tree} (h : ofSequence es = .ok t)
    (i : Interpretation α) : i.replay es = t.run i := by
  unfold ofSequence Interpretation.replay at h
  rw [Traced.result_bind] at h
  obtain ⟨s, hfold, h⟩ := Except.exists_of_bind_eq_ok h
  rw [Traced.result_bind, result_tracedSettle] at h
  obtain ⟨u, hsettle, h⟩ := Except.exists_of_bind_eq_ok h
  -- there is nothing to be run before the first element
  have hstart : runState i State.empty = pure State.empty := Traced.pure_bind _ _
  calc i.replay es
      = (runState i .empty >>= fun s => es.foldlM i.feed s) >>= fun s =>
          tracedSettle i.toReducer Operator.executable s.operators s.operands >>= fun t =>
            .ofExcept (final t) := by
        rw [hstart, Traced.pure_bind]
        rfl
    _ = runState i u >>= fun t => .ofExcept (final t) := by
        rw [run_foldlM i hfold, ← run_settleState i hsettle, Traced.bind_assoc]
    _ = t.run i := run_final i h

end Tree

end Reckon

import Reckon.Proofs.Formula.Session
import Reckon.Proofs.Machine.Barrier
import Reckon.Proofs.Operator.Refusal

/-!
# Consumption — what a transition that fails has taken off

A transition may execute any number of operators before one of them fails.  Whatever it has done by
then, it has done it at the tops of the two stacks: what lies further down is as it was, and nothing
has been pushed but the result of the operators that have been executed.

* `Machine.Execution` — all that executing one operator can come to;
* `Machine.Executes` — the operators on top are executed one after the other;
* `Machine.Stops` — the ways in which a transition fails in a state that it has reached;
* `Machine.FailsWith` — the transitions that can fail, with the state that they leave;
* `Machine.Consumes` — what is said of this state, and `Machine.failure_consumes_top` — it is so for
  all of them, on values and on symbolic operands.
-/

namespace Reckon

variable {α β : Type}

/-- Operators fail for reasons of their own only. -/
structure Reducer.Refuses (r : Reducer α) : Prop where
  binary : ∀ {op x y e}, r.binary op x y = .error e → Refusal (.binary op) e
  function : ∀ {f x e}, r.function f x = .error e → Refusal (.function f) e

theorem Refusal.ne_insufficientOperands {op op' : Operator} {e : Error} (h : Refusal op e) :
    e ≠ .insufficientOperands op' := by
  cases h <;> nofun

namespace Machine

variable {r : Reducer α} {s t u : State α} {e : Error} {ops : List Operator}

/-! ## One operator -/

/-- What an operator comes to on a stack: it takes its operands off the top, and its result takes
their place, if there is one; or there are too few operands, and they stay. -/
inductive Execution (r : Reducer α) (op : Operator) (operands : Stack α) :
    EStateM.Result Error (Stack α) Unit → Prop where
  | result {args below : Stack α} {v : α} : operands = args ++ below → args ≠ [] →
    perform r op args = .ok [v] → Execution r op operands (.ok () (v :: below))
  | refusal {args below : Stack α} {e : Error} : operands = args ++ below → args ≠ [] →
    Refusal op e → Execution r op operands (.error e below)
  | shortage : operands.length < op.arity →
    Execution r op operands (.error (.insufficientOperands op) operands)

theorem execution (hr : r.Refuses) {op : Operator} (hop : op.executable = true)
    (operands : Stack α) : Execution r op operands (execute r op operands) := by
  match op, operands with
  | .bracket side, operands =>
    cases hop
  | .function f, [] =>
    exact .shortage Nat.one_pos
  | .function f, x :: below =>
    have hsplit : x :: below = [x] ++ below := rfl
    cases hx : r.function f x with
    | ok v =>
      have hperform : perform r (.function f) [x] = .ok [v] := by
        rw [perform_function, hx]
        rfl
      simp only [execute, hx]
      exact .result hsplit (List.cons_ne_nil _ _) hperform
    | error e =>
      simp only [execute, hx]
      exact .refusal hsplit (List.cons_ne_nil _ _) (hr.function hx)
  | .binary op, [] =>
    exact .shortage Nat.two_pos
  | .binary op, [y] =>
    exact .shortage Nat.one_lt_two
  | .binary op, y :: x :: below =>
    -- the second operand is on top of the first
    have hsplit : y :: x :: below = [y, x] ++ below := rfl
    cases hxy : r.binary op x y with
    | ok v =>
      have hperform : perform r (.binary op) [y, x] = .ok [v] := by
        rw [perform_binary, hxy]
        rfl
      simp only [execute, hxy]
      exact .result hsplit (List.cons_ne_nil _ _) hperform
    | error e =>
      simp only [execute, hxy]
      exact .refusal hsplit (List.cons_ne_nil _ _) (hr.binary hxy)

/-! ## Operators from the top down -/

/-- The operands behind operators that are executed one after the other. -/
def performAll (r : Reducer α) (ops : List Operator) (operands : Stack α) :
    Except Error (Stack α) :=
  ops.foldlM (fun operands op => perform r op operands) operands

theorem performAll_concat (r : Reducer α) (ops : List Operator) (op : Operator)
    (operands : Stack α) :
    performAll r (ops ++ [op]) operands = performAll r ops operands >>= perform r op := by
  rw [performAll, List.foldlM_append]
  congr 1
  funext operands'
  exact bind_pure _

/-- What lies below the operands that are used does not matter. -/
theorem performAll_append {operands operands' : Stack α}
    (h : performAll r ops operands = .ok operands') (below : Stack α) :
    performAll r ops (operands ++ below) = .ok (operands' ++ below) := by
  induction ops generalizing operands with
  | nil =>
    cases h
    rfl
  | cons op ops ih =>
    rw [performAll, List.foldlM_cons] at h ⊢
    obtain ⟨operands'', hfirst, hrest⟩ := Except.exists_of_bind_eq_ok h
    rw [perform_append hfirst]
    exact ih hrest

/-- The operators `ops` are executed from the top of the state `s` down, which leaves the state
`u`. -/
structure Executes (r : Reducer α) (ops : List Operator) (s u : State α) : Prop where
  operators : s.operators = ops ++ u.operators
  operands : performAll r ops s.operands = .ok u.operands

theorem executes_nil (s : State α) : Executes r [] s s := ⟨rfl, rfl⟩

theorem Executes.cons {op : Operator} {operands operands' : Stack α} {below : Stack Operator}
    (hperform : perform r op operands = .ok operands')
    (h : Executes r ops ⟨operands', below⟩ u) :
    Executes r (op :: ops) ⟨operands, op :: below⟩ u where
  operators := congrArg (op :: ·) h.operators
  operands := by
    rw [performAll, List.foldlM_cons, hperform]
    exact h.operands

/-- An operator that is executed takes operands off the top and leaves one in their place. -/
theorem exists_of_perform (hr : r.Refuses) {op : Operator} {operands operands' : Stack α}
    (h : perform r op operands = .ok operands') :
    ∃ (args below : Stack α) (v : α), operands = args ++ below ∧ args ≠ [] ∧
      operands' = v :: below ∧ perform r op args = .ok [v] := by
  have hop : op.executable = true := by
    cases op with
    | bracket side =>
      rw [perform_bracket] at h
      cases h
    | function f => rfl
    | binary op => rfl
  have hexecution := execution hr hop operands
  rw [perform] at h
  generalize execute r op operands = result at hexecution h
  cases hexecution with
  | result hsplit hargs hv =>
    cases h
    exact ⟨_, _, _, hsplit, hargs, rfl, hv⟩
  | refusal hsplit hargs he => cases h
  | shortage hfew => cases h

/-- Of what is taken off, a single result on top is the first. -/
theorem exists_of_append_eq {args below kept : Stack α} {fresh : Option α} (hargs : args ≠ [])
    (h : args ++ below = fresh.toList ++ kept) :
    ∃ extra, args = fresh.toList ++ extra ∧ kept = extra ++ below := by
  obtain ⟨x, args, rfl⟩ := List.exists_cons_of_ne_nil hargs
  cases fresh with
  | none =>
    exact ⟨x :: args, rfl, h.symm⟩
  | some v =>
    obtain ⟨rfl, rfl⟩ := List.cons.inj h
    exact ⟨args, rfl, rfl⟩

/-- Operators that are executed replace some operands from the top by one result, however many they
are. -/
theorem exists_of_performAll (hr : r.Refuses) {operands operands' : Stack α}
    (h : performAll r ops operands = .ok operands') :
    ∃ (taken kept : Stack α) (fresh : Option α), operands = taken ++ kept ∧
      operands' = fresh.toList ++ kept ∧
        performAll r ops taken = .ok fresh.toList ∧ (fresh.isSome → ops ≠ []) := by
  -- on the operators in their order; the last one takes the result of those before it
  induction ops using List.reverseRecOn generalizing operands' with
  | nil =>
    cases h
    exact ⟨[], operands, none, rfl, rfl, rfl, nofun⟩
  | append_singleton ops op ih =>
    rw [performAll_concat] at h
    obtain ⟨operands₁, hfirst, hlast⟩ := Except.exists_of_bind_eq_ok h
    obtain ⟨taken, kept, fresh, rfl, rfl, htaken, -⟩ := ih hfirst
    obtain ⟨args, below, v, hsplit, hargs, rfl, hv⟩ := exists_of_perform hr hlast
    obtain ⟨extra, rfl, rfl⟩ := exists_of_append_eq hargs hsplit.symm
    refine ⟨taken ++ extra, below, some v, (List.append_assoc ..).symm, rfl, ?_, by simp⟩
    rw [performAll_concat, performAll_append htaken]
    exact hv

/-! ## Where a transition fails -/

/-- A transition that has come to the state `u` fails there with the error `e` and leaves `t`: the
operator on top fails, or the function does that waits below a left bracket; or nothing is touched,
and then no operand is missing. -/
inductive Stops (r : Reducer α) (e : Error) (u t : State α) : Prop where
  | execution {op : Operator} : op.executable = true →
    u.operators = op :: t.operators ∨ u.operators = .bracket .left :: op :: t.operators →
    execute r op u.operands = .error e t.operands → Stops r e u t
  | mismatch : t = u → (∀ op, e ≠ .insufficientOperands op) → Stops r e u t

theorem executes_of_reduceWhile {p : Operator → Bool} {operators : Stack Operator}
    {operands : Stack α} {u : State α} (h : reduceWhile r p operators operands = .ok () u) :
    ∃ ops, Executes r ops ⟨operands, operators⟩ u := by
  induction operators generalizing operands with
  | nil =>
    cases h
    exact ⟨[], executes_nil _⟩
  | cons op operators ih =>
    unfold reduceWhile at h
    split at h
    · cases hexecute : execute r op operands with
      | ok v operands' =>
        rw [hexecute] at h
        obtain ⟨ops, hops⟩ := ih h
        exact ⟨op :: ops, .cons (congrArg outcome hexecute) hops⟩
      | error e operands' =>
        rw [hexecute] at h
        cases h
    · cases h
      exact ⟨[], executes_nil _⟩

theorem stops_of_reduceWhile {p : Operator → Bool} (hp : ∀ op, p op = true → op.executable = true)
    {operators : Stack Operator} {operands : Stack α}
    (h : reduceWhile r p operators operands = .error e t) :
    ∃ ops u, Executes r ops ⟨operands, operators⟩ u ∧ Stops r e u t := by
  induction operators generalizing operands with
  | nil => cases h
  | cons op operators ih =>
    unfold reduceWhile at h
    split at h
    · cases hexecute : execute r op operands with
      | ok v operands' =>
        rw [hexecute] at h
        obtain ⟨ops, u, hops, hstops⟩ := ih h
        exact ⟨op :: ops, u, .cons (congrArg outcome hexecute) hops, hstops⟩
      | error e' operands' =>
        rw [hexecute] at h
        cases h
        exact ⟨[], _, executes_nil _, .execution (hp op ‹_›) (Or.inl rfl) hexecute⟩
    · cases h

/-- A transition that reduces first fails in the reduction, or behind it. -/
theorem stops_of_reduce_bind {p : Operator → Bool} (hp : ∀ op, p op = true → op.executable = true)
    {m : Machine α β} (hm : ∀ {u}, m u = .error e t → Stops r e u t)
    (h : (reduce r p >>= fun _ => m) s = .error e t) :
    ∃ ops u, Executes r ops s u ∧ Stops r e u t := by
  change EStateM.bind (reduce r p) (fun _ => m) s = _ at h
  unfold EStateM.bind at h
  cases hreduce : reduce r p s with
  | ok v u =>
    rw [hreduce] at h
    obtain ⟨ops, hops⟩ := executes_of_reduceWhile hreduce
    exact ⟨ops, u, hops, hm h⟩
  | error e' t' =>
    rw [hreduce] at h
    cases h
    exact stops_of_reduceWhile hp hreduce

theorem execute_of_executeTop {op : Operator} {ops : Stack Operator} {operands : Stack α}
    (h : executeTop r ⟨operands, op :: ops⟩ = .error e t) :
    execute r op operands = .error e t.operands ∧ t.operators = ops := by
  unfold executeTop at h
  dsimp only at h
  cases hexecute : execute r op operands with
  | ok v operands' =>
    rw [hexecute] at h
    cases h
  | error e' operands' =>
    rw [hexecute] at h
    cases h
    exact ⟨rfl, rfl⟩

theorem stops_of_executeTop {op : Operator} (hop : op.executable = true)
    (htop : s.operators.top? = some op) (h : executeTop r s = .error e t) : Stops r e s t := by
  obtain ⟨operands, _ | ⟨op', ops⟩⟩ := s
  · cases htop
  · cases htop
    obtain ⟨hexecute, rfl⟩ := execute_of_executeTop h
    exact .execution hop (Or.inl rfl) hexecute

/-- Behind the reductions, a closing bracket fails if its partner is not there, or as the function
that it calls fails. -/
theorem stops_of_matchBracket {op : Operator}
    (h : (matchBracket op >>= fun _ => callWaiting r) u = .error e t) : Stops r e u t := by
  obtain ⟨operands, ops⟩ := u
  rcases ops with _ | ⟨_ | (_ | _) | _, ops⟩
  · cases h
    exact .mismatch rfl nofun
  · cases h
    exact .mismatch rfl nofun
  · -- the bracket is off; only a function in front of it is called
    change callWaiting r ⟨operands, ops⟩ = .error e t at h
    rcases ops with _ | ⟨_ | _ | f, ops⟩
    · cases h
    · cases h
    · cases h
    · obtain ⟨hexecute, rfl⟩ := execute_of_executeTop h
      exact .execution rfl (Or.inr rfl) hexecute
  · cases h
    exact .mismatch rfl nofun
  · cases h
    exact .mismatch rfl nofun

theorem stops_of_expectNoOperators (h : expectNoOperators u = .error e t) : Stops r e u t := by
  unfold expectNoOperators at h
  split at h
  · cases h
  · cases h
    exact .mismatch rfl nofun
  · cases h
    exact .mismatch rfl nofun

theorem stops_of_result (h : result u = .error e t) : Stops r e u t := by
  unfold result at h
  split at h
  · cases h
  · cases h
    exact .mismatch rfl nofun

/-- At the end of the input, operators that are left over fail before the operands are counted. -/
theorem stops_of_expectNoOperators_bind
    (h : (expectNoOperators >>= fun _ => result) u = .error e t) : Stops r e u t := by
  change EStateM.bind expectNoOperators (fun _ => result) u = _ at h
  unfold EStateM.bind at h
  cases hexpect : expectNoOperators u with
  | ok v u' =>
    rw [hexpect] at h
    obtain rfl : u' = u := by
      unfold expectNoOperators at hexpect
      split at hexpect <;> cases hexpect
      rfl
    exact stops_of_result h
  | error e' t' =>
    rw [hexpect] at h
    cases h
    exact stops_of_expectNoOperators hexpect

/-- The transitions that can fail: one that is started in the state `s` has the error `e` and leaves
the state `t`. -/
inductive FailsWith (r : Reducer α) (s : State α) (e : Error) (t : State α) : Prop where
  | pushOperator {op : Operator} : pushOperator r op s = .error e t → FailsWith r s e t
  | closeBracket {op : Operator} : closeBracket r op s = .error e t → FailsWith r s e t
  | apply {op : Operator} : apply r op s = .error e t → FailsWith r s e t
  | drain : drain r s = .error e t → FailsWith r s e t
  | finish : finish r s = .error e t → FailsWith r s e t
  | executeTop {op : Operator} : s.operators.top? = some op → op.executable = true →
    executeTop r s = .error e t → FailsWith r s e t

theorem executable_of_yieldsTo {op waiting : Operator} (h : yieldsTo op waiting = true) :
    waiting.executable = true :=
  (Bool.and_eq_true_iff.1 h).1

theorem stops_of_pushOperator {op : Operator} (h : pushOperator r op s = .error e t) :
    ∃ ops u, Executes r ops s u ∧ Stops r e u t := by
  refine stops_of_reduce_bind (fun _ => executable_of_yieldsTo) ?_ h
  -- to push the operator does not fail
  rintro u ⟨⟩

theorem stops_of_closeBracket {op : Operator} (h : closeBracket r op s = .error e t) :
    ∃ ops u, Executes r ops s u ∧ Stops r e u t :=
  stops_of_reduce_bind (fun _ => id) stops_of_matchBracket h

/-- Whatever the transition is, it executes operators and stops. -/
theorem FailsWith.exists_stops (h : FailsWith r s e t) :
    ∃ ops u, Executes r ops s u ∧ Stops r e u t := by
  cases h with
  | pushOperator h => exact stops_of_pushOperator h
  | closeBracket h => exact stops_of_closeBracket h
  | @apply op h =>
    match op with
    | .binary op => exact stops_of_pushOperator h
    | .function f => cases h
    | .bracket .left => cases h
    | .bracket .right => exact stops_of_closeBracket h
  | drain h => exact stops_of_reduce_bind (fun _ => id) stops_of_expectNoOperators h
  | finish h =>
    rw [Machine.finish, Machine.drain, bind_assoc] at h
    exact stops_of_reduce_bind (fun _ => id) stops_of_expectNoOperators_bind h
  | executeTop htop hop h => exact ⟨[], s, executes_nil s, stops_of_executeTop hop htop h⟩

/-! ## What is left -/

/-- The state `t` that a failure leaves, against the state `s` before: both stacks, from the bottom
to the top, begin as before, and there is one operand at most that was not there, which is what
operators that are gone have made of operands that are gone.  If an operand was missing, those that
the failing operator found are all there. -/
structure Consumes (r : Reducer α) (s : State α) (e : Error) (t : State α) : Prop where
  operators : t.operators.toList <+: s.operators.toList
  operands : ∃ (kept taken : List α) (fresh : Option α),
    s.operands.toList = kept ++ taken ∧ t.operands.toList = kept ++ fresh.toList ∧
      ∀ v ∈ fresh, ∃ ops rest, ops ≠ [] ∧ s.operators = ops ++ rest ∧ t.operators <:+ rest ∧
        performAll r ops (Stack.ofList taken) = .ok [v]
  insufficient : ∀ op, e = .insufficientOperands op → ∃ ops u, Executes r ops s u ∧
    (u.operators = op :: t.operators ∨ u.operators = .bracket .left :: op :: t.operators) ∧
      u.operands.length < op.arity ∧ t.operands = u.operands

theorem Stops.operators (h : Stops r e u t) : t.operators <:+ u.operators := by
  cases h with
  | execution hop hoperators hexecute =>
    rcases hoperators with h | h
    · exact ⟨[_], h.symm⟩
    · exact ⟨[_, _], h.symm⟩
  | mismatch ht he =>
    exact ht ▸ List.suffix_rfl

/-- What fails takes operands off, or leaves them all where they are; in the second case it may be
that there were too few of them. -/
theorem Stops.operands (hr : r.Refuses) (h : Stops r e u t) :
    (∃ args, args ≠ [] ∧ u.operands = args ++ t.operands ∧ ∀ op, e ≠ .insufficientOperands op) ∨
      t.operands = u.operands ∧ ∀ op, e = .insufficientOperands op →
        (u.operators = op :: t.operators ∨ u.operators = .bracket .left :: op :: t.operators) ∧
          u.operands.length < op.arity := by
  cases h with
  | mismatch ht he => exact Or.inr ⟨congrArg State.operands ht, fun op h => absurd h (he op)⟩
  | execution hop hoperators hexecute =>
    have hexecution := Machine.execution hr hop u.operands
    rw [hexecute] at hexecution
    generalize t.operands = operands at hexecution
    cases hexecution with
    | refusal hsplit hargs he =>
      exact Or.inl ⟨_, hargs, hsplit, fun _ => he.ne_insufficientOperands⟩
    | shortage hfew =>
      refine Or.inr ⟨rfl, fun op' h => ?_⟩
      cases h
      exact ⟨hoperators, hfew⟩

theorem consumes_of_stops (hr : r.Refuses) (hops : Executes r ops s u) (h : Stops r e u t) :
    Consumes r s e t where
  operators := List.reverse_prefix.2 (h.operators.trans ⟨ops, hops.operators.symm⟩)
  operands := by
    obtain ⟨taken, kept, fresh, hs, hu, htaken, hne⟩ := exists_of_performAll hr hops.operands
    rcases h.operands hr with ⟨args, hargs, hargsu, -⟩ | ⟨ht, -⟩
    · -- the result of the operators before has been taken off, and maybe more
      obtain ⟨extra, -, rfl⟩ := exists_of_append_eq hargs (hargsu.symm.trans hu)
      refine ⟨t.operands.reverse, (taken ++ extra).reverse, none, ?_, ?_, nofun⟩
      · rw [hs, Stack.toList, ← List.append_assoc, List.reverse_append]
      · rw [Option.toList_none, List.append_nil, Stack.toList]
    · -- it is still there
      refine ⟨kept.reverse, taken.reverse, fresh, ?_, ?_, fun v hv => ?_⟩
      · rw [hs, Stack.toList, List.reverse_append]
      · rw [ht, hu, Stack.toList, List.reverse_append]
        cases fresh <;> rfl
      · obtain rfl : fresh = some v := hv
        refine ⟨ops, u.operators, hne rfl, hops.operators, h.operators, ?_⟩
        rwa [Stack.ofList, List.reverse_reverse]
  insufficient op he := by
    rcases h.operands hr with ⟨args, -, -, hne⟩ | ⟨ht, hinsufficient⟩
    · exact absurd he (hne op)
    · obtain ⟨hoperators, hfew⟩ := hinsufficient op he
      exact ⟨ops, u, hops, hoperators, hfew, ht⟩

/-! ## The two machines -/

section

variable [Capacity]

theorem refuses_concrete : Semantics.concrete.Refuses where
  binary := Binary.refusal
  function := Function.refusal

theorem refuses_deferral : Deferral.reducer.Refuses where
  binary h := by
    obtain ⟨v, w, -, -, hexecute⟩ := Deferral.exists_of_binary_error h
    exact Binary.refusal hexecute
  function h := by
    obtain ⟨v, hexecute⟩ := Deferral.exists_of_function_error h
    exact Function.refusal hexecute

/-- Whatever the state of a machine, on values or on symbolic operands, and whichever transition
fails, only the tops of the two stacks are consumed. -/
theorem failure_consumes_top :
    (∀ s e t, FailsWith Semantics.concrete s e t → Consumes Semantics.concrete s e t) ∧
      ∀ s e t, FailsWith Deferral.reducer s e t → Consumes Deferral.reducer s e t := by
  constructor
  · intro s e t h
    obtain ⟨ops, u, hops, hstops⟩ := h.exists_stops
    exact consumes_of_stops refuses_concrete hops hstops
  · intro s e t h
    obtain ⟨ops, u, hops, hstops⟩ := h.exists_stops
    exact consumes_of_stops refuses_deferral hops hstops

end

/-- The second sum lacks an operand; the result of the first one is left. -/
theorem failure_consumes_top_of_sums :
    drain Semantics.concrete ⟨[.text "b", .text "a"], [.binary .add, .binary .add]⟩ =
        .error (.insufficientOperands (.binary .add)) ⟨[.text "ab"], []⟩ ∧
      Consumes Semantics.concrete ⟨[.text "b", .text "a"], [.binary .add, .binary .add]⟩
        (.insufficientOperands (.binary .add)) ⟨[.text "ab"], []⟩ :=
  ⟨rfl, failure_consumes_top.1 _ _ _ (.drain rfl)⟩

end Machine
end Reckon

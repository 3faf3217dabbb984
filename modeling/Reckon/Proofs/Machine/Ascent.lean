import Mathlib.Data.List.Chain
import Reckon.Proofs.Machine.Consumption
import Reckon.Proofs.Machine.Ledger
import Reckon.Proofs.Machine.Move

/-!
# Ascent — how operators lie on one another

The stack of operators as a whole is not sorted: functions, minus signs in front of an operand and
left brackets are pushed onto whatever is there.  What holds is local.  A binary operator is pushed
only after everything on top that binds as tight has been reduced, and apart from that operators are
only ever taken off the top.  So a binary operator binds tighter than the operator directly below
it, if that one can be executed.  A transition that fails halfway has taken some operators off and
pushed none, which is why failures make no difference.

* `Operator.LiesOn`, `Machine.Ascends` — the condition on two operators, and on a stack of them;
* `Machine.Call`, `Machine.Attained` — the calls of a machine, and the states that they lead to;
* `Machine.TakesOff` — transitions that only take operators off the top;
* `Machine.exists_attained_iff` — the stacks of operators in these states are those that ascend, and
  no others;
* `Machine.Complaint` — the errors of calls in these states;
* `Machine.Orderly`, `Machine.attained_orderly` — what holds in each of these states, on values and
  on symbolic operands.
-/

namespace Reckon

/-! ## Operators on one another -/

namespace Operator

/-- Whether `upper` may lie directly on `lower`: a binary operator binds tighter than an operator
below it that can be executed. -/
def LiesOn (upper lower : Operator) : Prop :=
  upper.isBinary = true → lower.executable = true → lower.precedence < upper.precedence

instance : DecidableRel LiesOn := fun _ _ => inferInstanceAs (Decidable (_ → _))

end Operator

theorem Binary.precedence_mem (op : Binary) : op.precedence ∈ [-1, 1, 2] := by
  cases op <;> decide

namespace Machine

open Operator

variable {α β γ : Type} {r : Reducer α} {s t u : State α} {e : Error} {ops ops' : Stack Operator}
  {result : EStateM.Result Error (State α) Unit}

/-- Operators without a right bracket that lie on one another as they may; the topmost comes
first. -/
structure Ascends (ops : Stack Operator) : Prop where
  noRightBracket : .rightBracket ∉ ops
  liesOn : ops.IsChain LiesOn

instance (ops : Stack Operator) : Decidable (Ascends ops) :=
  decidable_of_iff (.rightBracket ∉ ops ∧ ops.IsChain LiesOn)
    ⟨fun h => ⟨h.1, h.2⟩, fun h => ⟨h.noRightBracket, h.liesOn⟩⟩

theorem ascends_nil : Ascends [] where
  noRightBracket := List.not_mem_nil
  liesOn := .nil

theorem Ascends.suffix (h : Ascends ops) (hsuffix : ops' <:+ ops) : Ascends ops' where
  noRightBracket hmem := h.noRightBracket (hsuffix.mem hmem)
  liesOn := h.liesOn.suffix hsuffix

theorem Ascends.push (h : Ascends ops) {op : Operator} (hop : op ≠ .rightBracket)
    (htop : ∀ lower, ops.top? = some lower → op.LiesOn lower) : Ascends (ops.push op) where
  noRightBracket := by
    simpa [Stack.push, hop.symm] using h.noRightBracket
  liesOn := h.liesOn.cons htop

/-- An operator that is not binary may be pushed onto whatever is there. -/
theorem Ascends.push_waiting (h : Ascends ops) {op : Operator} (hop : op ≠ .rightBracket)
    (hbinary : op.isBinary = false) : Ascends (ops.push op) :=
  h.push hop fun _ _ h => absurd h (by simp [hbinary])

/-- A chain of binary operators goes through different precedences, of which there are three. -/
theorem Ascends.length_le (h : Ascends ops) {run : List Binary}
    (hrun : run.map .binary <:+: ops) : run.length ≤ 3 := by
  have hchain : (run.map Binary.precedence).IsChain (· > ·) := by
    have hbinary := List.IsChain.infix h.liesOn hrun
    rw [List.isChain_map] at hbinary ⊢
    exact hbinary.imp fun _ _ hlies => hlies rfl rfl
  have hnodup : (run.map Binary.precedence).Nodup :=
    (List.isChain_iff_pairwise.1 hchain).imp fun hgt => hgt.ne'
  have hsubset : run.map Binary.precedence ⊆ [-1, 1, 2] := by
    intro p hp
    obtain ⟨op, -, rfl⟩ := List.mem_map.1 hp
    exact op.precedence_mem
  simpa using (hnodup.subperm hsubset).length_le

/-! ## Calls -/

/-- A call of a machine in the state `s` comes to `result`: an operand arrives, or an operator of
any class, or a minus in front of an operand; everything that is left is reduced; or the operator on
top is executed. -/
inductive Call (r : Reducer α) (s : State α) (result : EStateM.Result Error (State α) Unit) :
    Prop where
  | pushOperand (v : α) : pushOperand v s = result → Call r s result
  | apply (op : Operator) : apply r op s = result → Call r s result
  | pushPrefix : pushWaiting .opposite s = result → Call r s result
  | drain : drain r s = result → Call r s result
  | executeTop (op : Operator) : s.operators.top? = some op → op.executable = true →
    executeTop r s = result → Call r s result

/-- The states that calls lead to from the empty machine.  After a call that fails, the next one
finds the state that the failure has left. -/
inductive Attained (r : Reducer α) : State α → Prop where
  | empty : Attained r .empty
  | call {s : State α} {result : EStateM.Result Error (State α) Unit} : Attained r s →
    Call r s result → Attained r (left result)

/-! ## Two transitions in a row -/

theorem bind_of_ok {m : Machine α β} {v : β} (h : m s = .ok v u) (k : β → Machine α γ) :
    (m >>= k) s = k v u := by
  change EStateM.bind m k s = _
  simp only [EStateM.bind, h]

theorem bind_of_error {m : Machine α β} (h : m s = .error e t) (k : β → Machine α γ) :
    (m >>= k) s = .error e t := by
  change EStateM.bind m k s = _
  simp only [EStateM.bind, h]

/-- Two transitions fail by the first one, or by the second one. -/
theorem cases_of_bind_error {m : Machine α β} {k : β → Machine α γ}
    (h : (m >>= k) s = .error e t) :
    m s = .error e t ∨ ∃ v u, m s = .ok v u ∧ k v u = .error e t := by
  cases hm : m s with
  | ok v u =>
    rw [bind_of_ok hm] at h
    exact Or.inr ⟨v, u, rfl, h⟩
  | error e' t' =>
    rw [bind_of_error hm] at h
    cases h
    exact Or.inl rfl

/-! ## Taking off -/

/-- A transition that only takes operators off the top, also if it fails. -/
def TakesOff (m : Machine α β) : Prop :=
  ∀ s, (left (m s)).operators <:+ s.operators

theorem TakesOff.bind {m : Machine α β} {k : β → Machine α γ} (h : TakesOff m)
    (hk : ∀ v, TakesOff (k v)) : TakesOff (m >>= k) := by
  intro s
  have hs := h s
  cases hm : m s with
  | ok v t =>
    rw [hm] at hs
    rw [bind_of_ok hm]
    exact (hk v t).trans hs
  | error e t =>
    rw [hm] at hs
    rw [bind_of_error hm]
    exact hs

theorem takesOff_reduce (p : Operator → Bool) : TakesOff (reduce r p) := by
  rintro ⟨operands, ops⟩
  -- on the operators from the top down; the first one that fails is off as well
  induction ops generalizing operands with
  | nil =>
    exact List.suffix_rfl
  | cons op ops ih =>
    unfold reduce reduceWhile
    dsimp only
    split
    · split
      · exact (ih _).trans (List.suffix_cons _ _)
      · exact List.suffix_cons _ _
    · exact List.suffix_rfl

theorem takesOff_executeTop : TakesOff (executeTop r) := by
  rintro ⟨operands, _ | ⟨op, ops⟩⟩
  · exact List.suffix_rfl
  · unfold executeTop
    dsimp only
    split <;> exact List.suffix_cons _ _

theorem takesOff_callWaiting : TakesOff (callWaiting r) := by
  intro s
  unfold callWaiting
  split
  · exact takesOff_executeTop s
  · exact List.suffix_rfl

theorem takesOff_matchBracket (op : Operator) : TakesOff (matchBracket op : Machine α Unit) := by
  rintro ⟨operands, ops⟩
  unfold matchBracket
  split
  · rename_i ops' hops
    exact ⟨[.bracket .left], hops.symm⟩
  · exact List.suffix_rfl

theorem takesOff_expectNoOperators : TakesOff (expectNoOperators : Machine α Unit) := by
  intro s
  unfold expectNoOperators
  split <;> exact List.suffix_rfl

theorem takesOff_closeBracket (op : Operator) : TakesOff (closeBracket r op) :=
  (takesOff_reduce _).bind fun _ => (takesOff_matchBracket op).bind fun _ => takesOff_callWaiting

theorem takesOff_drain : TakesOff (drain r) :=
  (takesOff_reduce _).bind fun _ => takesOff_expectNoOperators

theorem Ascends.takeOff {m : Machine α β} (hs : Ascends s.operators) (hm : TakesOff m) :
    Ascends (left (m s)).operators :=
  hs.suffix (hm s)

/-! ## The invariant -/

/-- A binary operator may lie on what does not yield to it. -/
theorem liesOn_binary_iff {op : Binary} {lower : Operator} :
    LiesOn (.binary op) lower ↔ yieldsTo (.binary op) lower = false := by
  simp [LiesOn, isBinary, yieldsTo]

theorem ascends_pushOperator (hs : Ascends s.operators) (op : Binary) :
    Ascends (left (pushOperator r (.binary op) s)).operators := by
  have hreduced := hs.takeOff (takesOff_reduce (r := r) (yieldsTo (.binary op)))
  unfold pushOperator
  cases hreduce : reduce r (yieldsTo (.binary op)) s with
  | ok v u =>
    rw [hreduce] at hreduced
    rw [bind_of_ok hreduce]
    exact hreduced.push nofun fun lower htop =>
      liesOn_binary_iff.2 (top_of_reduceWhile hreduce lower htop)
  | error e t =>
    -- nothing is pushed
    rw [hreduce] at hreduced
    rw [bind_of_error hreduce]
    exact hreduced

theorem ascends_apply (hs : Ascends s.operators) (op : Operator) :
    Ascends (left (apply r op s)).operators := by
  match op with
  | .binary op => exact ascends_pushOperator hs op
  | .function f => exact hs.push_waiting nofun rfl
  | .bracket .left => exact hs.push_waiting nofun rfl
  | .bracket .right => exact hs.takeOff (takesOff_closeBracket _)

/-- Every call keeps the order of the operators, whether it fails or not. -/
theorem Call.ascends (h : Call r s result) (hs : Ascends s.operators) :
    Ascends (left result).operators := by
  cases h with
  | pushOperand v h =>
    cases h
    exact hs
  | apply op h => exact h ▸ ascends_apply hs op
  | pushPrefix h =>
    cases h
    exact hs.push_waiting nofun rfl
  | drain h => exact h ▸ hs.takeOff takesOff_drain
  | executeTop op htop hop h => exact h ▸ hs.takeOff takesOff_executeTop

/-- So it holds in every state that calls lead to. -/
theorem Attained.ascends (h : Attained r s) : Ascends s.operators := by
  induction h with
  | empty => exact ascends_nil
  | call _ hcall ih => exact hcall.ascends ih

/-- No operator yields to one that may lie on it. -/
theorem Ascends.pushOperator {op : Binary} (h : Ascends (.binary op :: ops)) (r : Reducer α)
    (operands : Stack α) :
    Machine.pushOperator r (.binary op) ⟨operands, ops⟩ = .ok () ⟨operands, .binary op :: ops⟩ := by
  have hreduce : reduce r (yieldsTo (.binary op)) ⟨operands, ops⟩ = .ok () ⟨operands, ops⟩ := by
    cases ops with
    | nil => rfl
    | cons lower ops => exact reduceWhile_of_not ops operands (liesOn_binary_iff.1 h.liesOn.rel)
  exact bind_of_ok hreduce _

/-- Operators that ascend can be pushed one after the other. -/
theorem Ascends.attained (r : Reducer α) (h : Ascends ops) : Attained r ⟨[], ops⟩ := by
  induction ops with
  | nil => exact .empty
  | cons op ops ih =>
    have hbelow := ih (h.suffix (List.suffix_cons _ _))
    have hcall : Call r ⟨[], ops⟩ (.ok () ⟨[], op :: ops⟩) := by
      refine .apply op ?_
      match op with
      | .function f => rfl
      | .bracket .left => rfl
      | .bracket .right => exact absurd List.mem_cons_self h.noRightBracket
      | .binary op => exact h.pushOperator r []
    exact hbelow.call hcall

/-- The stacks of operators that a machine can have are those that ascend, and no others. -/
theorem exists_attained_iff (r : Reducer α) (ops : Stack Operator) :
    (∃ s, Attained r s ∧ s.operators = ops) ↔ Ascends ops := by
  constructor
  · rintro ⟨s, hs, rfl⟩
    exact hs.ascends
  · intro h
    exact ⟨_, h.attained r, rfl⟩

/-- A `+` may lie on a function and that on a `*`, but no comma lies on a `+`. -/
example : Ascends [.binary .add, .function .sin, .binary .mul] ∧
    ¬Ascends [.binary .comma, .binary .add] := by
  decide

/-! ## Errors of calls -/

/-- What a call complains of that leaves the operators `ops`: an operator has refused its operands,
or there were too few of them; or a bracket has no partner. -/
inductive Complaint (ops : Stack Operator) : Error → Prop where
  | refusal {op : Operator} {e : Error} : Refusal op e → Complaint ops e
  | shortage (op : Operator) : Complaint ops (.insufficientOperands op)
  | unopened : ops = [] → Complaint ops (.unmatchedBracket .rightBracket)
  | unclosed : ops.top? = some .leftBracket → Complaint ops (.unmatchedBracket .leftBracket)

/-- Executing an operator fails by its operands only. -/
theorem complaint_of_execute (hr : r.Refuses) {op : Operator} (hop : op.executable = true)
    {operands below : Stack α} (h : execute r op operands = .error e below)
    (ops : Stack Operator) : Complaint ops e := by
  have hexecution := execution hr hop operands
  rw [h] at hexecution
  cases hexecution with
  | refusal _ _ he => exact .refusal he
  | shortage _ => exact .shortage op

theorem complaint_of_reduce (hr : r.Refuses) {p : Operator → Bool}
    (hp : ∀ op, p op = true → op.executable = true) (h : reduce r p s = .error e t) :
    Complaint t.operators e := by
  obtain ⟨operands, ops⟩ := s
  -- a reduction fails by the first operator that fails, whatever those above it have left
  induction ops generalizing operands with
  | nil => cases h
  | cons op ops ih =>
    unfold reduce reduceWhile at h
    dsimp only at h
    split at h
    · rename_i hop
      split at h
      · exact ih _ h
      · rename_i hexecute
        cases h
        exact complaint_of_execute hr (hp op hop) hexecute _
    · cases h

theorem complaint_of_executeTop (hr : r.Refuses) {op : Operator} (hop : op.executable = true)
    (htop : s.operators.top? = some op) (h : executeTop r s = .error e t) :
    Complaint t.operators e := by
  obtain ⟨operands, _ | ⟨op', ops⟩⟩ := s
  · cases htop
  · cases htop
    exact complaint_of_execute hr hop (execute_of_executeTop h).1 _

theorem complaint_of_callWaiting (hr : r.Refuses) (h : callWaiting r s = .error e t) :
    Complaint t.operators e := by
  unfold callWaiting at h
  split at h
  · rename_i f ops hops
    exact complaint_of_executeTop hr rfl (congrArg List.head? hops) h
  · cases h

/-- When all that can be executed is, nothing is left or a left bracket is next. -/
theorem Ascends.bottom (hs : Ascends s.operators) (h : reduce r executable s = .ok () u) :
    u.operators = [] ∨ ∃ ops, u.operators = .leftBracket :: ops := by
  have hu : Ascends u.operators := by
    have hreduced := hs.takeOff (takesOff_reduce (r := r) executable)
    rwa [h] at hreduced
  have htop := top_of_reduceWhile h
  cases hops : u.operators with
  | nil => exact Or.inl rfl
  | cons op ops =>
    rw [hops] at hu htop
    match op, htop op rfl with
    | .bracket .left, _ => exact Or.inr ⟨ops, rfl⟩
    -- the only other operator that cannot be executed is never there
    | .bracket .right, _ => exact absurd List.mem_cons_self hu.noRightBracket

theorem complaint_of_drain (hr : r.Refuses) (hs : Ascends s.operators)
    (h : drain r s = .error e t) : Complaint t.operators e := by
  rcases cases_of_bind_error h with hreduce | ⟨_, ⟨operands, ops⟩, hreduce, hexpect⟩
  · exact complaint_of_reduce hr (fun _ => id) hreduce
  · rcases hs.bottom hreduce with rfl | ⟨ops, rfl⟩
    · cases hexpect
    · cases hexpect
      exact .unclosed rfl

theorem complaint_of_closeBracket (hr : r.Refuses) (hs : Ascends s.operators)
    (h : closeBracket r .rightBracket s = .error e t) : Complaint t.operators e := by
  rcases cases_of_bind_error h with hreduce | ⟨_, ⟨operands, ops⟩, hreduce, hclose⟩
  · exact complaint_of_reduce hr (fun _ => id) hreduce
  · rcases hs.bottom hreduce with rfl | ⟨ops, rfl⟩
    · cases hclose
      exact .unopened rfl
    · exact complaint_of_callWaiting (s := ⟨operands, ops⟩) hr hclose

/-- Calls that fail in an attained state have no other errors. -/
theorem Call.complaint (hr : r.Refuses) (hs : Ascends s.operators) (h : Call r s (.error e t)) :
    Complaint t.operators e := by
  cases h with
  | pushOperand v h => cases h
  | apply op h =>
    match op with
    | .binary op =>
      rcases cases_of_bind_error h with hreduce | ⟨_, u, -, hpush⟩
      · exact complaint_of_reduce hr (fun _ => executable_of_yieldsTo) hreduce
      · cases hpush
    | .function f => cases h
    | .bracket .left => cases h
    | .bracket .right => exact complaint_of_closeBracket hr hs h
  | pushPrefix h => cases h
  | drain h => exact complaint_of_drain hr hs h
  | executeTop op htop hop h => exact complaint_of_executeTop hr hop htop h

/-! ## What holds in every state -/

/-- What holds of a state that calls lead to. -/
structure Orderly (r : Reducer α) (s : State α) : Prop where
  /-- No right bracket is on the stack. -/
  noRightBracket : .rightBracket ∉ s.operators
  /-- A binary operator binds tighter than the operator directly below it, if that can be
  executed. -/
  ascending : ∀ (op : Binary) (lower : Operator), [.binary op, lower] <:+: s.operators →
    lower.executable = true → lower.precedence < op.precedence
  /-- At most three binary operators lie directly on one another. -/
  run : ∀ ops : List Binary, ops.map .binary <:+: s.operators → ops.length ≤ 3
  /-- Once everything on top that can be executed is, as for a right bracket and at the end of the
  input, a left bracket is next or nothing is left. -/
  bottom : ∀ u, reduce r executable s = .ok () u →
    u.operators = [] ∨ u.operators.top? = some .leftBracket
  /-- No call comes upon an operator that cannot be executed, except for brackets without a
  partner. -/
  unexecutable : ∀ op t, ¬Call r s (.error (.unexecutable op) t)
  /-- Neither does the end of the input. -/
  finished : ∀ op t, finish r s ≠ .error (.unexecutable op) t
  /-- A right bracket without a partner has come down to the bottom of the stack. -/
  unmatched : ∀ t, Call r s (.error (.unmatchedBracket .rightBracket) t) → t.operators = []

theorem Attained.orderly (hr : r.Refuses) (h : Attained r s) : Orderly r s where
  noRightBracket := h.ascends.noRightBracket
  ascending op lower hpair := by
    have hlies := List.IsChain.infix h.ascends.liesOn hpair
    exact List.isChain_pair.1 hlies rfl
  run _ hrun := h.ascends.length_le hrun
  bottom u hreduce := by
    rcases h.ascends.bottom hreduce with hu | ⟨ops, hu⟩
    · exact Or.inl hu
    · exact Or.inr (congrArg List.head? hu)
  unexecutable op t hcall := by
    cases hcall.complaint hr h.ascends with
    | refusal hrefusal => cases hrefusal
  unmatched t hcall := by
    cases hcall.complaint hr h.ascends with
    | refusal hrefusal => cases hrefusal
    | unopened ht => exact ht
  finished op t hfinish := by
    rcases cases_of_bind_error hfinish with hdrain | ⟨_, u, -, hresult⟩
    · cases complaint_of_drain hr h.ascends hdrain with
      | refusal hrefusal => cases hrefusal
    · unfold result at hresult
      split at hresult <;> cases hresult

/-- In every state that a machine can be in, on values or on symbolic operands, whatever calls it
has had and whichever of them have failed, the operators lie on one another in order, and no
operator is come upon that cannot be executed, except for brackets without a partner. -/
theorem attained_orderly [Capacity] :
    (∀ s, Attained Semantics.concrete s → Orderly Semantics.concrete s) ∧
      ∀ s, Attained Deferral.reducer s → Orderly Deferral.reducer s :=
  ⟨fun _ h => h.orderly refuses_concrete, fun _ h => h.orderly refuses_deferral⟩

/-- A product fails for want of operands, and three operators of rising precedence are pushed after
it. -/
theorem attained_orderly_of_three :
    drain Semantics.concrete ⟨[.text "a"], [.binary .mul]⟩ =
        .error (.insufficientOperands (.binary .mul)) ⟨[.text "a"], []⟩ ∧
      Attained Semantics.concrete
        ⟨[.text "a"], [.binary .mul, .binary .add, .binary .comma]⟩ ∧
      Orderly Semantics.concrete ⟨[.text "a"], [.binary .mul, .binary .add, .binary .comma]⟩ := by
  have hdrain : Call Semantics.concrete ⟨[.text "a"], [.binary .mul]⟩
      (.error (.insufficientOperands (.binary .mul)) ⟨[.text "a"], []⟩) := .drain rfl
  have hfirst : Attained Semantics.concrete ⟨[.text "a"], [.binary .mul]⟩ :=
    (Attained.empty.call (.pushOperand (Value.text "a") rfl)).call (.apply (.binary .mul) rfl)
  have hfailed : Attained Semantics.concrete ⟨[.text "a"], []⟩ := hfirst.call hdrain
  have hthree : Attained Semantics.concrete
      ⟨[.text "a"], [.binary .mul, .binary .add, .binary .comma]⟩ :=
    ((hfailed.call (.apply (.binary .comma) rfl)).call (.apply (.binary .add) rfl)).call
      (.apply (.binary .mul) rfl)
  exact ⟨rfl, hthree, attained_orderly.1 _ hthree⟩

end Machine
end Reckon

import Mathlib.Data.List.Forall2
import Reckon.Proofs.Evaluation.Trace

/-!
# Lockstep — one reading under two semantics

The same tokens can be evaluated under two semantics.  If operands of the one are related to
operands of the other, the two evaluations take the same steps on related operands until a step has
different outcomes, and nothing but such a step can part them:

* `Comparison` — two semantics, with a relation between their operands and one between errors;
* `Comparison.Lockstep` — two computations go together to the end or part at a step;
* `Comparison.lockstep_traced` — the evaluations of a reading are in lockstep.

Every statement that compares evaluations is a case of the last theorem; what is left to be shown is
what a single step does.
-/

namespace Reckon

open Machine Evaluation

variable {α β γ δ ρ σ : Type}

/-- Two semantics that are compared. -/
structure Comparison (α β : Type) where
  left : Semantics α
  right : Semantics β
  SameOperand : α → β → Prop
  SameError : Error → Error → Prop

namespace Comparison

variable (c : Comparison α β)

/-! ## Relations -/

/-- Outcomes that are both errors or both values, and related. -/
inductive Agree (Q : γ → δ → Prop) : Except Error γ → Except Error δ → Prop where
  | ok {v : γ} {w : δ} : Q v w → Agree Q (.ok v) (.ok w)
  | error {e e' : Error} : c.SameError e e' → Agree Q (.error e) (.error e')

/-- Steps of the same kind on related operands. -/
inductive SameStep : Step α → Step β → Prop where
  | resolution (name : String) : SameStep (.resolution name) (.resolution name)
  | reduction (op : Operator) {xs : List α} {ys : List β} :
    List.Forall₂ c.SameOperand xs ys → SameStep (.reduction op xs) (.reduction op ys)

/-- Steps of the same kind on related operands with outcomes that are not related. -/
inductive Parting : Step α → Step β → Prop where
  | resolution (name : String) :
    ¬c.Agree c.SameOperand (c.left.resolve name) (c.right.resolve name) →
      Parting (.resolution name) (.resolution name)
  | binary (op : Binary) {x y : α} {v w : β} : c.SameOperand x v → c.SameOperand y w →
    ¬c.Agree c.SameOperand (c.left.binary op x y) (c.right.binary op v w) →
      Parting (.reduction (.binary op) [x, y]) (.reduction (.binary op) [v, w])
  | function (f : Function) {x : α} {v : β} : c.SameOperand x v →
    ¬c.Agree c.SameOperand (c.left.function f x) (c.right.function f v) →
      Parting (.reduction (.function f) [x]) (.reduction (.function f) [v])

/-- States with the same operators and related operands. -/
structure SameState (s : State α) (t : State β) : Prop where
  operands : List.Forall₂ c.SameOperand s.operands t.operands
  operators : s.operators = t.operators

/-- Evaluations at the same place with related states. -/
structure SameEvaluation (e : Evaluation α) (e' : Evaluation β) : Prop where
  state : c.SameState e.state e'.state
  awaitsOperand : e.awaitsOperand = e'.awaitsOperand
  marker : e.marker = e'.marker

/-- What the comparison needs of the words of a reading: literals are related, and an error that is
not about a missing variable is related to itself. -/
structure Fair (r : Reading) : Prop where
  number : ∀ x, c.SameOperand (c.left.number x) (c.right.number x)
  text : ∀ t ∈ r.tokens, t.kind = .text → c.SameOperand (c.left.text t.text) (c.right.text t.text)
  error : ∀ e, (∀ name, e ≠ .unknownVariable name) → c.SameError e e
  failure : ∀ e, r.failure = some e → c.SameError e e

/-- Two computations take the same steps, up to the end or up to a step with different outcomes. -/
inductive Lockstep (Q : γ → δ → Prop) (x : Traced α γ) (y : Traced β δ) : Prop where
  | together :
    List.Forall₂ c.SameStep x.steps y.steps → c.Agree Q x.result y.result → Lockstep Q x y
  | apart {before : List (Step α)} {before' : List (Step β)} {s : Step α} {s' : Step β} :
    List.Forall₂ c.SameStep before before' → c.Parting s s' → x.Reaches c.left before s →
      y.Reaches c.right before' s' → Lockstep Q x y

variable {c}

/-! ## Rules -/

theorem Lockstep.ofExcept {Q : γ → δ → Prop} {o : Except Error γ} {o' : Except Error δ}
    (h : c.Agree Q o o') : c.Lockstep Q (.ofExcept o) (.ofExcept o') :=
  .together .nil h

theorem Lockstep.pure {Q : γ → δ → Prop} {v : γ} {w : δ} (h : Q v w) :
    c.Lockstep Q (Pure.pure v) (Pure.pure w) :=
  .together .nil (.ok h)

theorem Lockstep.fail {Q : γ → δ → Prop} {e : Error} (h : c.SameError e e) :
    c.Lockstep Q (.fail e) (.fail e) :=
  .together .nil (.error h)

theorem reaches_single (sem : Semantics α) (s : Step α) :
    (Traced.single s (sem.take s)).Reaches sem [] s :=
  ⟨[], rfl, fun _ he => ⟨rfl, he⟩⟩

theorem Lockstep.single {s : Step α} {s' : Step β} (h : c.SameStep s s')
    (hpart : ¬c.Agree c.SameOperand (c.left.take s) (c.right.take s') → c.Parting s s') :
    c.Lockstep c.SameOperand (.single s (c.left.take s)) (.single s' (c.right.take s')) := by
  -- the step itself decides whether the two go on together
  by_cases hagree : c.Agree c.SameOperand (c.left.take s) (c.right.take s')
  · exact .together (.cons h .nil) hagree
  · exact .apart .nil (hpart hagree) (reaches_single c.left s) (reaches_single c.right s')

/-- Computations in lockstep stay so, whatever follows on related values. -/
theorem Lockstep.bind {Q : γ → δ → Prop} {P : ρ → σ → Prop} {x : Traced α γ} {y : Traced β δ}
    {f : γ → Traced α ρ} {g : δ → Traced β σ} (h : c.Lockstep Q x y)
    (hfg : ∀ v w, Q v w → c.Lockstep P (f v) (g w)) : c.Lockstep P (x >>= f) (y >>= g) := by
  cases h with
  | apart hbefore hpart hx hy =>
    -- what follows does not matter any more
    exact .apart hbefore hpart (hx.bind f) (hy.bind g)
  | together hsteps hresult =>
    generalize hxv : x.result = o, hyw : y.result = o' at hresult
    cases hresult with
    | error herror =>
      rw [Traced.bind_eq_of_error f hxv, Traced.bind_eq_of_error g hyw]
      exact .together hsteps (.error herror)
    | @ok v w hvw =>
      cases hfg v w hvw with
      | apart hbefore hpart hx hy =>
        exact .apart (List.rel_append hsteps hbefore) hpart (hx.of_ok hxv) (hy.of_ok hyw)
      | together hsteps' hresult' =>
        rw [Traced.bind_eq_of_ok f hxv, Traced.bind_eq_of_ok g hyw]
        exact .together (List.rel_append hsteps hsteps') hresult'

theorem Lockstep.map {Q : γ → δ → Prop} {P : ρ → σ → Prop} {x : Traced α γ} {y : Traced β δ}
    {f : γ → ρ} {g : δ → σ} (h : c.Lockstep Q x y) (hfg : ∀ v w, Q v w → P (f v) (g w)) :
    c.Lockstep P (do return f (← x)) (do return g (← y)) :=
  h.bind fun v w hvw => .pure (hfg v w hvw)

/-! ## The machine -/

theorem SameState.withOperand {s : State α} {t : State β} (h : c.SameState s t) {v : α} {w : β}
    (hvw : c.SameOperand v w) : c.SameState (s.withOperand v) (t.withOperand w) :=
  ⟨.cons hvw h.operands, h.operators⟩

theorem SameState.withOperator {s : State α} {t : State β} (h : c.SameState s t) (op : Operator) :
    c.SameState (s.withOperator op) (t.withOperator op) :=
  ⟨h.operands, congrArg (op :: ·) h.operators⟩

section Machine

variable (hE : ∀ e, (∀ name, e ≠ .unknownVariable name) → c.SameError e e)

include hE

theorem lockstep_tracedPerform (op : Operator) {xs : Stack α} {ys : Stack β}
    (h : List.Forall₂ c.SameOperand xs ys) :
    c.Lockstep (List.Forall₂ c.SameOperand) (tracedPerform c.left.toReducer op xs)
      (tracedPerform c.right.toReducer op ys) := by
  have hinsufficient : ∀ op, c.SameError (.insufficientOperands op) (.insufficientOperands op) :=
    fun op => hE _ (by simp)
  have hbracket : c.SameError (.limit .bracketExecuted) (.limit .bracketExecuted) := hE _ (by simp)
  cases op with
  | bracket side =>
    simp only [tracedPerform]
    exact .fail hbracket
  | function f =>
    -- both stacks have the same height
    rcases h with _ | ⟨hx, hbelow⟩
    · exact .fail (hinsufficient _)
    · have hstep : c.SameStep (.reduction (.function f) _) (.reduction (.function f) _) :=
        .reduction _ (.cons hx .nil)
      exact (Lockstep.single hstep (.function f hx)).map fun v w hvw => .cons hvw hbelow
  | binary op =>
    rcases h with _ | ⟨hy, _ | ⟨hx, hbelow⟩⟩
    · exact .fail (hinsufficient _)
    · exact .fail (hinsufficient _)
    · have hstep : c.SameStep (.reduction (.binary op) _) (.reduction (.binary op) _) :=
        .reduction _ (.cons hx (.cons hy .nil))
      exact (Lockstep.single hstep (.binary op hx hy)).map fun v w hvw => .cons hvw hbelow

theorem lockstep_tracedSettle (p : Operator → Bool) (ops : Stack Operator) {xs : Stack α}
    {ys : Stack β} (h : List.Forall₂ c.SameOperand xs ys) :
    c.Lockstep c.SameState (tracedSettle c.left.toReducer p ops xs)
      (tracedSettle c.right.toReducer p ops ys) := by
  -- on the operators, which both states share; the operands stay related
  induction ops generalizing xs ys with
  | nil =>
    exact .pure ⟨h, rfl⟩
  | cons op ops ih =>
    unfold tracedSettle
    by_cases hp : p op = true
    · rw [if_pos hp, if_pos hp]
      exact (lockstep_tracedPerform hE op h).bind fun v w hvw => ih hvw
    · rw [if_neg hp, if_neg hp]
      exact .pure ⟨h, rfl⟩

theorem lockstep_tracedClose (op : Operator) {s : State α} {t : State β} (h : c.SameState s t) :
    c.Lockstep c.SameState (tracedClose c.left.toReducer op s)
      (tracedClose c.right.toReducer op t) := by
  obtain ⟨xs, ops⟩ := s
  obtain ⟨ys, ops'⟩ := t
  obtain ⟨hoperands, rfl⟩ := h
  -- no bracket, a bracket with a call, or a bracket alone
  have hunmatched : c.SameError (.unmatchedBracket op) (.unmatchedBracket op) := hE _ (by simp)
  rcases ops with _ | ⟨_ | (_ | _) | _, _ | ⟨_ | _ | f, ops⟩⟩
  all_goals first
    | exact .fail hunmatched
    | exact .pure ⟨hoperands, rfl⟩
    | exact (lockstep_tracedPerform hE (.function f) hoperands).map fun v w hvw => ⟨hvw, rfl⟩

theorem lockstep_tracedAdvance (op : Operator) {s : State α} {t : State β} (h : c.SameState s t) :
    c.Lockstep c.SameState (tracedAdvance c.left.toReducer op s)
      (tracedAdvance c.right.toReducer op t) := by
  have hsettle : ∀ p, c.Lockstep c.SameState
      (tracedSettle c.left.toReducer p s.operators s.operands)
      (tracedSettle c.right.toReducer p t.operators t.operands) := by
    intro p
    rw [← h.operators]
    exact lockstep_tracedSettle hE p _ h.operands
  match op with
  | .binary op =>
    exact (hsettle _).map fun v w hvw => hvw.withOperator _
  | .function f =>
    exact .pure (h.withOperator _)
  | .bracket .left =>
    exact .pure (h.withOperator _)
  | .bracket .right =>
    exact (hsettle _).bind fun v w hvw => lockstep_tracedClose hE _ hvw

theorem agree_final {s : State α} {t : State β} (h : c.SameState s t) :
    c.Agree c.SameOperand (final s) (final t) := by
  obtain ⟨xs, ops⟩ := s
  obtain ⟨ys, ops'⟩ := t
  obtain ⟨hoperands, rfl⟩ := h
  rcases ops with _ | ⟨_ | (_ | _) | _, ops⟩
  · rcases hoperands with _ | ⟨hx, _ | ⟨hy, hbelow⟩⟩
    · exact .error (hE _ (by simp))
    · exact .ok hx
    · -- the error tells how many operands are left, which is the same number
      simp only [final, List.length_cons, hbelow.length_eq]
      exact .error (hE _ (by simp))
  all_goals exact .error (hE _ (by simp))

end Machine

/-! ## The words -/

/-- A literal that denotes no number is refused for its digits or for its size. -/
theorem limit_of_literal {s : String} {e : Error} (h : Literal.value s = .error e) :
    ∃ cause, e = .limit cause := by
  have hdecimal : Literal.decimalValue s = .error e → ∃ cause, e = .limit cause := by
    intro h
    unfold Literal.decimalValue at h
    split at h
    · cases h
      exact ⟨_, rfl⟩
    · cases h
  unfold Literal.value at h
  split at h
  · split at h
    · unfold Literal.radixValue at h
      split at h
      · cases h
        exact ⟨_, rfl⟩
      · split at h
        · cases h
        · cases h
          exact ⟨_, rfl⟩
    · exact hdecimal h
  · exact hdecimal h

theorem SameEvaluation.withOperand {e : Evaluation α} {e' : Evaluation β}
    (h : c.SameEvaluation e e') {v : α} {w : β} (hvw : c.SameOperand v w) :
    c.SameEvaluation (e.withOperand v) (e'.withOperand w) :=
  ⟨h.state.withOperand hvw, rfl, rfl⟩

variable {r : Reading}

theorem lockstep_tracedFeedPlain (hfair : c.Fair r) {t : Token} (ht : t ∈ r.tokens)
    {e : Evaluation α} {e' : Evaluation β} (h : c.SameEvaluation e e') :
    c.Lockstep c.SameEvaluation (tracedFeedPlain c.left e t) (tracedFeedPlain c.right e' t) := by
  have hunsupported : c.SameError (unsupported t) (unsupported t) :=
    hfair.error _ (by simp [unsupported])
  unfold tracedFeedPlain
  cases hrole : role t with
  | number =>
    have hvalue : c.Agree (· = ·) (Literal.value t.text) (Literal.value t.text) := by
      cases hliteral : Literal.value t.text with
      | ok x =>
        exact .ok rfl
      | error error =>
        obtain ⟨cause, rfl⟩ := limit_of_literal hliteral
        exact .error (hfair.error _ (by simp))
    refine (Lockstep.ofExcept hvalue).map fun x y hxy => ?_
    subst hxy
    exact h.withOperand (hfair.number x)
  | text =>
    have hkind : t.kind = .text := kind_of_role_text hrole
    exact .pure (h.withOperand (hfair.text t ht hkind))
  | marker =>
    exact .pure ⟨h.state, h.awaitsOperand, rfl⟩
  | operator op =>
    -- both take a minus in the same way
    simp only [← h.awaitsOperand]
    split
    · exact .pure ⟨h.state.withOperator _, rfl, h.marker⟩
    · exact (lockstep_tracedAdvance hfair.error op h.state).map fun s s' hs => ⟨hs, rfl, h.marker⟩
  | unsupported =>
    exact .fail hunsupported

theorem lockstep_tracedFeed (hfair : c.Fair r) {t : Token} (ht : t ∈ r.tokens)
    {e : Evaluation α} {e' : Evaluation β} (h : c.SameEvaluation e e') :
    c.Lockstep c.SameEvaluation (tracedFeed c.left e t) (tracedFeed c.right e' t) := by
  unfold tracedFeed
  -- both wait for a name, or neither does
  rw [← h.marker]
  cases e.marker with
  | none =>
    exact lockstep_tracedFeedPlain hfair ht h
  | some m =>
    dsimp only
    split
    · have hstep : c.SameStep (.resolution t.text) (.resolution t.text) := .resolution t.text
      exact (Lockstep.single hstep (.resolution t.text)).map fun v w hvw => h.withOperand hvw
    · exact .fail (hfair.error _ (by simp [unsupported]))

theorem lockstep_foldlM (hfair : c.Fair r) {ts : List Token} (hts : ∀ t ∈ ts, t ∈ r.tokens)
    {e : Evaluation α} {e' : Evaluation β} (h : c.SameEvaluation e e') :
    c.Lockstep c.SameEvaluation (ts.foldlM (tracedFeed c.left) e)
      (ts.foldlM (tracedFeed c.right) e') := by
  induction ts generalizing e e' with
  | nil =>
    exact .pure h
  | cons t ts ih =>
    rw [List.foldlM_cons, List.foldlM_cons]
    refine (lockstep_tracedFeed hfair (hts t (by simp)) h).bind fun e e' h => ?_
    exact ih (fun u hu => hts u (List.mem_cons_of_mem t hu)) h

theorem lockstep_tracedConclude (hfair : c.Fair r) {e : Evaluation α} {e' : Evaluation β}
    (h : c.SameEvaluation e e') :
    c.Lockstep c.SameOperand (tracedConclude c.left e) (tracedConclude c.right e') := by
  unfold tracedConclude
  rw [← h.marker, ← h.state.operators]
  cases e.marker with
  | some t =>
    exact .fail (hfair.error _ (by simp [unsupported]))
  | none =>
    refine (lockstep_tracedSettle hfair.error _ _ h.state.operands).bind fun s s' hs => ?_
    exact .ofExcept (agree_final hfair.error hs)

/-- The evaluations of a reading go together until a step has different outcomes. -/
theorem lockstep_traced (hfair : c.Fair r) :
    c.Lockstep c.SameOperand (traced c.left r) (traced c.right r) := by
  have hstart : c.SameEvaluation start start := ⟨⟨.nil, rfl⟩, rfl, rfl⟩
  unfold traced
  refine (lockstep_foldlM hfair (fun t ht => ht) hstart).bind fun e e' h => ?_
  cases hfailure : r.failure with
  | some failure =>
    exact .fail (hfair.failure _ hfailure)
  | none =>
    exact lockstep_tracedConclude hfair h

end Comparison

/-! ## One evaluation -/

/-- The operands that a step works on have a property. -/
def Step.All (P : α → Prop) : Step α → Prop
  | .resolution _ => True
  | .reduction _ operands => ∀ x ∈ operands, P x

/-- The evaluation of a reading starts from operands with a property, and no operator leaves
them. -/
structure Semantics.Keeps (sem : Semantics α) (r : Reading) (P : α → Prop) : Prop where
  number : ∀ x, P (sem.number x)
  text : ∀ t ∈ r.tokens, t.kind = .text → P (sem.text t.text)
  resolve : ∀ {name v}, sem.resolve name = .ok v → P v
  binary : ∀ {op x y z}, P x → P y → sem.binary op x y = .ok z → P z
  function : ∀ {f x z}, P x → sem.function f x = .ok z → P z

namespace Semantics

variable {sem : Semantics α} {r : Reading} {P : α → Prop}

/-- An evaluation next to itself. -/
def diagonal (sem : Semantics α) (P : α → Prop) : Comparison α α where
  left := sem
  right := sem
  SameOperand x y := x = y ∧ P x
  SameError := (· = ·)

theorem agree_diagonal {o : Except Error α} (h : ∀ v, o = .ok v → P v) :
    (diagonal sem P).Agree (diagonal sem P).SameOperand o o := by
  cases o with
  | error e =>
    exact .error rfl
  | ok v =>
    exact .ok ⟨rfl, h v rfl⟩

theorem Keeps.not_parting (h : sem.Keeps r P) {s t : Step α} : ¬(diagonal sem P).Parting s t := by
  intro hpart
  cases hpart with
  | resolution name hdiffer =>
    exact hdiffer (agree_diagonal fun v hv => h.resolve hv)
  | binary op hx hy hdiffer =>
    obtain ⟨rfl, hx⟩ := hx
    obtain ⟨rfl, hy⟩ := hy
    exact hdiffer (agree_diagonal fun v hv => h.binary hx hy hv)
  | function f hx hdiffer =>
    obtain ⟨rfl, hx⟩ := hx
    exact hdiffer (agree_diagonal fun v hv => h.function hx hv)

theorem Keeps.lockstep (h : sem.Keeps r P) :
    List.Forall₂ (diagonal sem P).SameStep (traced sem r).steps (traced sem r).steps ∧
      (diagonal sem P).Agree (diagonal sem P).SameOperand (traced sem r).result
        (traced sem r).result := by
  have hfair : (diagonal sem P).Fair r := {
    number := fun x => ⟨rfl, h.number x⟩
    text := fun t ht hkind => ⟨rfl, h.text t ht hkind⟩
    error := fun _ _ => rfl
    failure := fun _ _ => rfl }
  cases Comparison.lockstep_traced hfair with
  | together hsteps hresult =>
    exact ⟨hsteps, hresult⟩
  | apart _ hpart _ _ =>
    exact absurd hpart h.not_parting

/-- Every step of the evaluation works on operands with the property. -/
theorem Keeps.all (h : sem.Keeps r P) {s : Step α} (hs : s ∈ (traced sem r).steps) : s.All P := by
  have hsame := List.forall₂_same.1 h.lockstep.1 s hs
  cases hsame with
  | resolution name =>
    trivial
  | reduction op hoperands =>
    exact fun x hx => (List.forall₂_same.1 hoperands x hx).2

/-- So has its result. -/
theorem Keeps.result (h : sem.Keeps r P) {v : α} (hv : ofReading sem r = .ok v) : P v := by
  have hresult := h.lockstep.2
  rw [result_traced, hv] at hresult
  cases hresult with
  | ok hsame =>
    exact hsame.2

end Semantics

end Reckon

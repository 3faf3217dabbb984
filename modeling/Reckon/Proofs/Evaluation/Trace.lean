import Reckon.Proofs.Evaluation.Feed
import Reckon.Proofs.Machine.Trace

/-!
# Trace — the steps of an evaluation

The evaluation of a reading as a computation with its steps: variables are resolved and operators
are executed in the order in which the tokens ask for it.

* `Evaluation.traced` — the trace of an evaluation; its result is that of `Evaluation.ofReading`.
* `Semantics.take` — what a step comes to.
* `Traced.Reaches` — a place in a trace; a step that fails is the last one.
* `Evaluation.resolution_notMem_traced` — without a marker among the tokens no variable is resolved;
* `Evaluation.exists_token_of_resolution` — and a variable that is resolved has been named.
-/

namespace Reckon

/-- The outcome of a step. -/
def Semantics.take {α : Type} (sem : Semantics α) : Step α → Except Error α
  | .resolution name => sem.resolve name
  | .reduction op operands => sem.execute op operands

/-! ## Places in a trace -/

/-- A computation takes the step `s` behind the steps `before`, and ends there if the step fails. -/
def Traced.Reaches {α β : Type} (sem : Semantics α) (x : Traced α β) (before : List (Step α))
    (s : Step α) : Prop :=
  ∃ rest, x.steps = before ++ s :: rest ∧
    ∀ e, sem.take s = .error e → rest = [] ∧ x.result = .error e

namespace Traced

variable {α β γ : Type} {sem : Semantics α} {x : Traced α β} {before : List (Step α)} {s : Step α}

theorem Reaches.mem (h : x.Reaches sem before s) : s ∈ x.steps := by
  obtain ⟨rest, hsteps, _⟩ := h
  simp [hsteps]

theorem Reaches.getElem? (h : x.Reaches sem before s) : x.steps[before.length]? = some s := by
  obtain ⟨rest, hsteps, _⟩ := h
  simp [hsteps]

theorem Reaches.result (h : x.Reaches sem before s) {e : Error} (he : sem.take s = .error e) :
    x.steps = before ++ [s] ∧ x.result = .error e := by
  obtain ⟨rest, hsteps, hfail⟩ := h
  obtain ⟨hrest, hresult⟩ := hfail e he
  exact ⟨by rw [hsteps, hrest], hresult⟩

theorem Reaches.bind (h : x.Reaches sem before s) (f : β → Traced α γ) :
    (x >>= f).Reaches sem before s := by
  obtain ⟨rest, hsteps, hfail⟩ := h
  cases hx : x.result with
  | ok v =>
    refine ⟨rest ++ (f v).steps, ?_, ?_⟩
    · rw [bind_eq_of_ok f hx, hsteps, List.append_assoc]
      rfl
    · -- the step cannot have failed, since there is a result
      intro e he
      have herror := (hfail e he).2
      rw [hx] at herror
      cases herror
  | error error =>
    refine ⟨rest, ?_, ?_⟩
    · rw [bind_eq_of_error f hx, hsteps]
    · intro e he
      obtain ⟨hrest, herror⟩ := hfail e he
      rw [hx] at herror
      cases herror
      rw [bind_eq_of_error f hx]
      exact ⟨hrest, rfl⟩

theorem Reaches.of_ok {f : β → Traced α γ} {v : β} (hx : x.result = .ok v)
    (h : (f v).Reaches sem before s) : (x >>= f).Reaches sem (x.steps ++ before) s := by
  obtain ⟨rest, hsteps, hfail⟩ := h
  refine ⟨rest, ?_, ?_⟩
  · rw [bind_eq_of_ok f hx, hsteps, List.append_assoc]
  · intro e he
    rw [bind_eq_of_ok f hx]
    exact hfail e he

end Traced

namespace Evaluation

open Machine

variable {α : Type}

/-! ## Evaluations with their steps -/

/-- `feedPlain` with its steps. -/
def tracedFeedPlain (sem : Semantics α) (e : Evaluation α) (t : Token) :
    Traced α (Evaluation α) :=
  match role t with
  | .number => do
    return e.withOperand (sem.number (← .ofExcept (Literal.value t.text)))
  | .text => pure (e.withOperand (sem.text t.text))
  | .marker => pure { e with marker := some t }
  | .operator op =>
    if op = .minus ∧ e.awaitsOperand = true then
      pure { e with state := e.state.withOperator .opposite, awaitsOperand := true }
    else do
      let state ← tracedAdvance sem.toReducer op e.state
      return { e with state, awaitsOperand := opensOperand op }
  | .unsupported => .fail (unsupported t)

/-- `feed` with its steps. -/
def tracedFeed (sem : Semantics α) (e : Evaluation α) (t : Token) : Traced α (Evaluation α) :=
  match e.marker with
  | some _ =>
    if t.kind = .name then do
      return e.withOperand (← .single (.resolution t.text) (sem.resolve t.text))
    else .fail (unsupported t)
  | none => tracedFeedPlain sem e t

/-- `conclude` with its steps. -/
def tracedConclude (sem : Semantics α) (e : Evaluation α) : Traced α α :=
  match e.marker with
  | some t => .fail (unsupported t)
  | none => do
    let s ← tracedSettle sem.toReducer Operator.executable e.state.operators e.state.operands
    .ofExcept (final s)

/-- The evaluation of a reading with its steps. -/
def traced (sem : Semantics α) (r : Reading) : Traced α α := do
  let e ← r.tokens.foldlM (tracedFeed sem) start
  match r.failure with
  | some failure => .fail failure
  | none => tracedConclude sem e

/-! ## Their results -/

theorem result_tracedFeedPlain (sem : Semantics α) (e : Evaluation α) (t : Token) :
    (tracedFeedPlain sem e t).result = feedPlain sem e t := by
  rw [feedPlain_eq]
  unfold tracedFeedPlain
  cases role t with
  | number =>
    exact Traced.result_bind _ _
  | text =>
    rfl
  | marker =>
    rfl
  | unsupported =>
    rfl
  | operator op =>
    by_cases hminus : op = .minus ∧ e.awaitsOperand = true
    · simp only [if_pos hminus, Traced.result_pure]
      rw [hminus.1, feedOperator_minus _ _ hminus.2]
    · simp only [if_neg hminus]
      rw [feedOperator_eq_advance _ _ _ hminus, Traced.result_bind, result_tracedAdvance]
      rfl

@[simp] theorem result_tracedFeed (sem : Semantics α) (e : Evaluation α) (t : Token) :
    (tracedFeed sem e t).result = feed sem e t := by
  unfold tracedFeed
  cases h : e.marker with
  | none =>
    rw [feed_of_marker_none sem t h]
    exact result_tracedFeedPlain sem e t
  | some m =>
    rw [feed_of_marker_some sem t h]
    by_cases hname : t.kind = .name
    · simp only [if_pos hname]
      exact Traced.result_bind _ _
    · simp only [if_neg hname]
      rfl

theorem result_foldlM_tracedFeed (sem : Semantics α) (ts : List Token) (e : Evaluation α) :
    (ts.foldlM (tracedFeed sem) e).result = ts.foldlM (feed sem) e := by
  induction ts generalizing e with
  | nil =>
    rfl
  | cons t ts ih =>
    rw [List.foldlM_cons, List.foldlM_cons, Traced.result_bind, result_tracedFeed]
    congr 1
    funext e
    exact ih e

theorem result_tracedConclude (sem : Semantics α) (e : Evaluation α) :
    (tracedConclude sem e).result = e.conclude sem := by
  unfold tracedConclude
  cases h : e.marker with
  | none =>
    rw [conclude_of_marker_none sem h]
    simp only [Traced.result_bind, result_tracedSettle]
    rfl
  | some m =>
    rw [conclude_of_marker_some sem h]
    rfl

/-- A trace has the result of the evaluation. -/
@[simp] theorem result_traced (sem : Semantics α) (r : Reading) :
    (traced sem r).result = ofReading sem r := by
  unfold traced
  rw [ofReading_eq, Traced.result_bind, result_foldlM_tracedFeed]
  congr 1
  funext e
  cases r.failure with
  | some failure =>
    rfl
  | none =>
    exact result_tracedConclude sem e

/-! ## Markers -/

theorem isMarker_of_role {t : Token} (h : role t = .marker) : t.isMarker = true := by
  unfold role at h
  split at h
  · cases h
  · split at h
    · cases h
    · split at h
      · assumption
      · split at h <;> cases h

/-- Without a marker among the tokens, an evaluation holds none. -/
theorem marker_eq_none_of_feed {sem : Semantics α} {e e' : Evaluation α} {t : Token}
    (ht : t.isMarker = false) (hm : e.marker = none) (h : feed sem e t = .ok e') :
    e'.marker = none := by
  cases takes_of_feed h with
  | name | number | text =>
    rfl
  | marker _ hrole =>
    -- excluded by the token itself
    rw [isMarker_of_role hrole] at ht
    cases ht
  | minus | operator =>
    exact hm

theorem resolution_notMem_tracedFeed (sem : Semantics α) {e : Evaluation α} (t : Token)
    (hm : e.marker = none) (name : String) :
    .resolution name ∉ (tracedFeed sem e t).steps := by
  simp only [tracedFeed, hm, tracedFeedPlain]
  split
  · simp [Traced.mem_steps_bind]
  · simp
  · simp
  · split
    · simp
    · rw [Traced.mem_steps_bind]
      rintro (h | ⟨state, _, h⟩)
      · exact resolution_notMem_tracedAdvance _ _ _ name h
      · simp at h
  · simp

theorem resolution_notMem_foldlM (sem : Semantics α) {ts : List Token}
    (hts : ∀ t ∈ ts, t.isMarker = false) {e : Evaluation α} (hm : e.marker = none)
    (name : String) : .resolution name ∉ (ts.foldlM (tracedFeed sem) e).steps := by
  induction ts generalizing e with
  | nil =>
    simp
  | cons t ts ih =>
    rw [List.foldlM_cons, Traced.mem_steps_bind]
    rintro (h | ⟨e', he', h⟩)
    · exact resolution_notMem_tracedFeed sem t hm name h
    · -- the evaluation behind the token holds no marker, either
      rw [result_tracedFeed] at he'
      have hm' := marker_eq_none_of_feed (hts t (by simp)) hm he'
      exact ih (fun u hu => hts u (List.mem_cons_of_mem t hu)) hm' h

/-- The variables of an evaluation are resolved while it is fed its tokens. -/
theorem resolution_mem_foldlM {sem : Semantics α} {r : Reading} {name : String}
    (h : .resolution name ∈ (traced sem r).steps) :
    .resolution name ∈ (r.tokens.foldlM (tracedFeed sem) start).steps := by
  unfold traced at h
  rw [Traced.mem_steps_bind] at h
  rcases h with h | ⟨e, _, h⟩
  · exact h
  · split at h
    · simp at h
    · unfold tracedConclude at h
      split at h
      · simp at h
      · rw [Traced.mem_steps_bind] at h
        rcases h with h | ⟨s, _, h⟩
        · exact absurd h (resolution_notMem_tracedSettle _ _ _ _ name)
        · simp at h

/-- An evaluation resolves variables only if there is a marker among its tokens. -/
theorem resolution_notMem_traced (sem : Semantics α) {r : Reading}
    (hts : ∀ t ∈ r.tokens, t.isMarker = false) (name : String) :
    .resolution name ∉ (traced sem r).steps :=
  fun h => resolution_notMem_foldlM sem hts rfl name (resolution_mem_foldlM h)

/-! ## Names -/

theorem name_of_resolution_mem_tracedFeed {sem : Semantics α} {e : Evaluation α} {t : Token}
    {name : String} (h : .resolution name ∈ (tracedFeed sem e t).steps) :
    t.kind = .name ∧ t.text = name := by
  cases hm : e.marker with
  | none =>
    exact absurd h (resolution_notMem_tracedFeed sem t hm name)
  | some m =>
    simp only [tracedFeed, hm] at h
    split at h
    · rename_i hkind
      rw [Traced.mem_steps_bind] at h
      rcases h with h | ⟨v, _, h⟩
      · cases List.mem_singleton.1 h
        exact ⟨hkind, rfl⟩
      · simp at h
    · simp at h

theorem exists_token_of_mem_foldlM {sem : Semantics α} {ts : List Token} {e : Evaluation α}
    {name : String} (h : .resolution name ∈ (ts.foldlM (tracedFeed sem) e).steps) :
    ∃ t ∈ ts, t.kind = .name ∧ t.text = name := by
  induction ts generalizing e with
  | nil =>
    simp at h
  | cons t ts ih =>
    rw [List.foldlM_cons, Traced.mem_steps_bind] at h
    rcases h with h | ⟨e', _, h⟩
    · exact ⟨t, List.mem_cons_self, name_of_resolution_mem_tracedFeed h⟩
    · obtain ⟨u, hu, hname⟩ := ih h
      exact ⟨u, List.mem_cons_of_mem t hu, hname⟩

/-- Only variables are resolved that a token names. -/
theorem exists_token_of_resolution {sem : Semantics α} {r : Reading} {name : String}
    (h : .resolution name ∈ (traced sem r).steps) :
    ∃ t ∈ r.tokens, t.kind = .name ∧ t.text = name :=
  exists_token_of_mem_foldlM (resolution_mem_foldlM h)

end Evaluation

end Reckon

import Reckon.Proofs.Evaluation.Trace

/-!
# Blame — what an evaluation fails by

When an evaluation fails, its words do not fit together, which is reported as such, or one of them
is to blame: a literal that denotes no number, or a step that fails on what it works on.

* `Semantics.Fails` — the errors of a step;
* `Traced.Blamed` — a computation fails in given ways or at a step, and its rules;
* `Evaluation.blamed_traced` — the errors of an evaluation.
-/

namespace Reckon

open Machine

variable {α β γ : Type}

/-- A step fails on what it works on. -/
inductive Semantics.Fails (sem : Semantics α) : Step α → Error → Prop where
  | resolution {name : String} {e : Error} : sem.resolve name = .error e →
    Fails sem (.resolution name) e
  | binary {op : Binary} {x y : α} {e : Error} : sem.binary op x y = .error e →
    Fails sem (.reduction (.binary op) [x, y]) e
  | function {f : Function} {x : α} {e : Error} : sem.function f x = .error e →
    Fails sem (.reduction (.function f) [x]) e

/-- The errors of a computation satisfy `R`, unless they are those of its steps. -/
def Traced.Blamed (sem : Semantics α) (R : Error → Prop) (x : Traced α β) : Prop :=
  ∀ e, x.result = .error e → R e ∨ ∃ s ∈ x.steps, sem.Fails s e

namespace Traced

variable {sem : Semantics α} {R : Error → Prop}

/-! ## Rules -/

theorem Blamed.pure (v : β) : (Pure.pure v : Traced α β).Blamed sem R := by
  intro e he
  cases he

theorem Blamed.ofExcept {o : Except Error β} (h : ∀ e, o = .error e → R e) :
    (Traced.ofExcept o : Traced α β).Blamed sem R :=
  fun e he => Or.inl (h e he)

theorem Blamed.fail {e : Error} (h : R e) : (Traced.fail e : Traced α β).Blamed sem R := by
  intro e' he
  cases he
  exact Or.inl h

theorem Blamed.single {s : Step α} {o : Except Error β} (h : ∀ e, o = .error e → sem.Fails s e) :
    (Traced.single s o).Blamed sem R :=
  fun e he => Or.inr ⟨s, List.mem_singleton_self s, h e he⟩

theorem Blamed.bind {x : Traced α β} {f : β → Traced α γ} (hx : x.Blamed sem R)
    (hf : ∀ v, (f v).Blamed sem R) : (x >>= f).Blamed sem R := by
  intro e he
  cases hv : x.result with
  | error e' =>
    rw [bind_eq_of_error f hv] at he ⊢
    cases he
    exact hx e hv
  | ok v =>
    rw [bind_eq_of_ok f hv] at he ⊢
    rcases hf v e he with hR | ⟨s, hs, hfails⟩
    · exact Or.inl hR
    · exact Or.inr ⟨s, List.mem_append_right _ hs, hfails⟩

end Traced

/-! ## Transitions -/

/-- Whether an error says that the operands and operators of a machine do not fit together. -/
def Error.isMisfit : Error → Bool
  | .unmatchedBracket _ | .unexecutable _ | .insufficientOperands _ | .noResult _ => true
  | _ => false

theorem Error.isReported_of_isMisfit {e : Error} (h : e.isMisfit = true) : e.isReported = true := by
  cases e with
  | limit cause =>
    cases h
  | _ =>
    rfl

namespace Machine

variable {sem : Semantics α} {R : Error → Prop}

/-- Nothing but a bracket is beyond execution. -/
theorem blamed_tracedPerform (hR : ∀ e, e.isMisfit = true → R e) {op : Operator}
    (hop : op.executable = true) (operands : Stack α) :
    (tracedPerform sem.toReducer op operands).Blamed sem R := by
  unfold tracedPerform
  split
  · exact (Traced.Blamed.single fun e he => .binary he).bind fun v => .pure _
  · exact (Traced.Blamed.single fun e he => .function he).bind fun v => .pure _
  · cases hop
  · exact .fail (hR _ rfl)

theorem blamed_tracedSettle (hR : ∀ e, e.isMisfit = true → R e) {p : Operator → Bool}
    (hp : ∀ op, p op = true → op.executable = true) (ops : Stack Operator) (operands : Stack α) :
    (tracedSettle sem.toReducer p ops operands).Blamed sem R := by
  induction ops generalizing operands with
  | nil =>
    exact .pure _
  | cons op ops ih =>
    unfold tracedSettle
    split
    · rename_i hop
      exact (blamed_tracedPerform hR (hp op hop) operands).bind fun operands' => ih operands'
    · exact .pure _

theorem blamed_tracedClose (hR : ∀ e, e.isMisfit = true → R e) (op : Operator) (s : State α) :
    (tracedClose sem.toReducer op s).Blamed sem R := by
  unfold tracedClose
  split
  · exact (blamed_tracedPerform hR rfl _).bind fun operands => .pure _
  · exact .pure _
  · exact .fail (hR _ rfl)

theorem blamed_tracedAdvance (hR : ∀ e, e.isMisfit = true → R e) (op : Operator) (s : State α) :
    (tracedAdvance sem.toReducer op s).Blamed sem R := by
  unfold tracedAdvance
  split
  · -- a bracket yields to no operator
    rename_i op
    have hyields : ∀ waiting, yieldsTo (.binary op) waiting = true → waiting.executable = true := by
      intro waiting h
      exact (Bool.and_eq_true_iff.1 h).1
    exact (blamed_tracedSettle hR hyields _ _).bind fun t => .pure _
  · exact .pure _
  · exact .pure _
  · exact (blamed_tracedSettle hR (fun _ h => h) _ _).bind fun t => blamed_tracedClose hR _ t

theorem isMisfit_of_final {s : State α} {e : Error} (h : final s = .error e) :
    e.isMisfit = true := by
  unfold final at h
  split at h
  · split at h
    · cases h
    · cases h
      rfl
  · cases h
    rfl
  · cases h
    rfl

end Machine

/-! ## Evaluations -/

namespace Evaluation

variable {sem : Semantics α} {r : Reading}

/-- The errors that no step of an evaluation has made. -/
inductive WordError (r : Reading) : Error → Prop where
  | reported {e : Error} : e.isReported = true → WordError r e
  | literal {t : Token} {e : Error} : t ∈ r.tokens → t.kind = .number →
    Literal.value t.text = .error e → WordError r e

theorem WordError.misfit (e : Error) (h : e.isMisfit = true) : WordError r e :=
  .reported (Error.isReported_of_isMisfit h)

theorem kind_of_role_number {t : Token} (h : role t = .number) : t.kind = .number := by
  unfold role at h
  split at h
  · assumption
  · split at h
    · cases h
    · split at h
      · cases h
      · split at h <;> cases h

theorem blamed_tracedFeedPlain (e : Evaluation α) {t : Token} (ht : t ∈ r.tokens) :
    (tracedFeedPlain sem e t).Blamed sem (WordError r) := by
  unfold tracedFeedPlain
  split
  · rename_i hrole
    refine Traced.Blamed.bind (.ofExcept fun error herror => ?_) fun x => .pure _
    exact .literal ht (kind_of_role_number hrole) herror
  · exact .pure _
  · exact .pure _
  · split
    · exact .pure _
    · exact (blamed_tracedAdvance WordError.misfit _ _).bind fun s => .pure _
  · exact .fail (.reported rfl)

theorem blamed_tracedFeed (e : Evaluation α) {t : Token} (ht : t ∈ r.tokens) :
    (tracedFeed sem e t).Blamed sem (WordError r) := by
  unfold tracedFeed
  split
  · split
    · exact (Traced.Blamed.single fun error herror => .resolution herror).bind fun v => .pure _
    · exact .fail (.reported rfl)
  · exact blamed_tracedFeedPlain e ht

theorem blamed_foldlM {ts : List Token} (hts : ∀ t ∈ ts, t ∈ r.tokens) (e : Evaluation α) :
    (ts.foldlM (tracedFeed sem) e).Blamed sem (WordError r) := by
  induction ts generalizing e with
  | nil =>
    exact .pure _
  | cons t ts ih =>
    obtain ⟨ht, hts⟩ := List.forall_mem_cons.1 hts
    rw [List.foldlM_cons]
    exact (blamed_tracedFeed e ht).bind fun e' => ih hts e'

theorem blamed_tracedConclude (e : Evaluation α) :
    (tracedConclude sem e).Blamed sem (WordError r) := by
  unfold tracedConclude
  split
  · exact .fail (.reported rfl)
  · refine (blamed_tracedSettle WordError.misfit (fun _ h => h) _ _).bind fun s => ?_
    exact .ofExcept fun error herror => .misfit error (isMisfit_of_final herror)

/-- An evaluation fails by an error that is reported as such, by a literal or by a step. -/
theorem blamed_traced (hfailure : ∀ e, r.failure = some e → e.isReported = true) :
    (traced sem r).Blamed sem (WordError r) := by
  unfold traced
  refine (blamed_foldlM (fun t ht => ht) _).bind fun e => ?_
  cases h : r.failure with
  | some failure =>
    exact .fail (.reported (hfailure failure h))
  | none =>
    exact blamed_tracedConclude e

end Evaluation

end Reckon

import Reckon.Proofs.Formula.Replay
import Reckon.Proofs.Operator.Oversize

/-!
# Cause — why a replay fails

The sequence of a formula is put together from the sequences of its parts, and it holds together in
the same way.  So there are just two reasons for a replay to fail: a variable that has no value, or
an operator of the sequence that refuses what parts of the sequence have come to.  No bracket,
operand or operator is ever missing.

* `Formula.Cause` — the reasons why a sequence fails;
* `causeShape`, `closed_causeShape` — deferred operations fail for these reasons only;
* `Unresolved` — the errors of a variable under given bindings;
* `Formula.replay_outcomes` — what a replay can come to.
-/

namespace Reckon

open Operand Formula

/-- Why a sequence fails: a variable in it has no value, or an operator in it refuses its operands,
which are what parts of the sequence come to. -/
inductive Formula.Cause [Capacity] (sem : Semantics Value) (es : List Element) : Error → Prop where
  | resolution {name : String} {e : Error} : .marker name ∈ es → sem.resolve name = .error e →
    Cause sem es e
  | execution {op : Operator} {operands : List Value} {e : Error} : .operator op ∈ es →
    (∀ v ∈ operands, ∃ part, part <:+: es ∧ outcome sem part = .ok v) →
      Semantics.concrete.execute op operands = .error e → Fault op operands e → Cause sem es e

variable {sem : Semantics Value} {P : CodeText → Prop} {es es' : List Element} {e : Error}

/-! ## Parts of sequences -/

theorem infix_bracketed (wrap : Bool) (es : List Element) : es <:+: bracketed wrap es := by
  cases wrap with
  | true =>
    exact ⟨[Element.leftBracket], [Element.rightBracket], rfl⟩
  | false =>
    exact List.infix_rfl

theorem infix_binarySequence (a : Operand) (op : Operator) (c : Operand) (p : Int) :
    a.sequence <:+: binarySequence a op c p ∧ c.sequence <:+: binarySequence a op c p := by
  constructor
  · exact (infix_bracketed _ _).trans (List.prefix_append _ _).isInfix
  · have hright : operandSequence (c.precedence ≤ p) c <:+ binarySequence a op c p :=
      (List.suffix_cons _ _).trans (List.suffix_append _ _)
    exact (infix_bracketed _ _).trans hright.isInfix

theorem infix_callSequence (op : Operator) (es : List Element) : es <:+: callSequence op es :=
  (infix_bracketed true es).trans (List.suffix_cons _ _).isInfix

theorem infix_joinMembers {ms : List Operand} {m : Operand} (hm : m ∈ ms) :
    m.sequence <:+: joinMembers ms := by
  have hmember : ∀ n : Operand, n.sequence <:+: n.member := by
    intro n
    rw [member_eq]
    exact infix_bracketed _ _
  induction ms with
  | nil =>
    cases hm
  | cons n ms ih =>
    cases ms with
    | nil =>
      rw [List.mem_singleton.1 hm]
      exact hmember n
    | cons k ms =>
      rw [joinMembers]
      · rcases List.mem_cons.1 hm with rfl | hm
        · exact (hmember m).trans (List.prefix_append _ _).isInfix
        · have hrest : joinMembers (k :: ms) <:+
              n.member ++ Element.comma :: joinMembers (k :: ms) :=
            (List.suffix_cons _ _).trans (List.suffix_append _ _)
          exact (ih hm).trans hrest.isInfix
      · simp

section

variable [Capacity]

namespace Formula

/-- What makes a part of a sequence fail makes the sequence fail. -/
theorem Cause.mono (h : Cause sem es e) (hes : es <:+: es') : Cause sem es' e := by
  cases h with
  | resolution hmem hresolve =>
    exact .resolution (hes.subset hmem) hresolve
  | execution hmem hparts hexecute hfault =>
    refine .execution (hes.subset hmem) ?_ hexecute hfault
    intro v hv
    obtain ⟨part, hpart, hv⟩ := hparts v hv
    exact ⟨part, hpart.trans hes, hv⟩

end Formula

/-! ## Operands that fail for a reason -/

/-- Sound operations that fail for a reason in their sequences. -/
def causeShape (sem : Semantics Value) (P : CodeText → Prop) : Shape where
  Text := P
  Marker _ := True
  Deferred es origin p :=
    (soundShape sem P).Deferred es origin p ∧
      ∀ e, Formula.outcome sem es = .error e → Cause sem es e

theorem refines_soundShape (sem : Semantics Value) (P : CodeText → Prop) :
    (causeShape sem P).Refines (soundShape sem P) :=
  ⟨id, id, And.left⟩

end

namespace Operand

theorem IsScalar.cause [Capacity] {a : Operand} (h : a.IsScalar (causeShape sem P))
    (he : a.outcome sem = .error e) : Cause sem a.sequence e := by
  cases h with
  | constant _ _ =>
    cases he
  | @marker name _ =>
    change Formula.outcome sem [.marker name] = .error e at he
    rw [outcome_marker] at he
    exact .resolution (List.mem_singleton_self _) he
  | deferred h =>
    exact h.2 e he

theorem exists_of_mapM_error {ms : List Operand}
    (he : ms.mapM (Operand.outcome sem) = .error e) : ∃ m ∈ ms, m.outcome sem = .error e := by
  induction ms with
  | nil =>
    cases he
  | cons m ms ih =>
    rw [List.mapM_cons] at he
    rcases Except.cases_of_bind_eq_error he with hm | ⟨v, -, he⟩
    · exact ⟨m, List.mem_cons_self, hm⟩
    · rcases Except.cases_of_bind_eq_error he with hms | ⟨vs, -, he⟩
      · obtain ⟨n, hn, hfail⟩ := ih hms
        exact ⟨n, List.mem_cons_of_mem m hn, hfail⟩
      · cases he

/-- The first member that fails is the reason for a group to fail. -/
theorem cause_joinMembers [Capacity] {ms : List Operand}
    (hms : ∀ m ∈ ms, m.IsScalar (causeShape sem P))
    (he : ms.mapM (Operand.outcome sem) = .error e) : Cause sem (joinMembers ms) e := by
  obtain ⟨m, hm, hfail⟩ := exists_of_mapM_error he
  exact ((hms m hm).cause hfail).mono (infix_joinMembers hm)

theorem Formed.cause [Capacity] (hsem : sem.Suits P) {a : Operand} (h : a.Formed (causeShape sem P))
    (he : a.outcome sem = .error e) : Cause sem a.sequence e := by
  cases h with
  | scalar h =>
    exact h.cause he
  | list marks _ =>
    cases he
  | @group ms hlength hsymbolic hscalar =>
    rw [Formed.outcome_group hsem hlength
      fun m hm => (hscalar m hm).mono (refines_soundShape sem P)] at he
    rcases Except.cases_of_bind_eq_error he with hfail | ⟨vs, -, he⟩
    · exact cause_joinMembers hscalar hfail
    · cases he

end Operand

theorem cause_call [Capacity] (hsem : sem.Suits P) {f : Function} {p : Int}
    (hreads : Reads sem es p)
    (hcause : ∀ e, Formula.outcome sem es = .error e → Cause sem es e)
    (he : Formula.outcome sem (callSequence (.function f) es) = .error e) :
    Cause sem (callSequence (.function f) es) e := by
  rw [hreads.outcome_call f, function_of_suits hsem] at he
  rcases Except.cases_of_bind_eq_error he with hfail | ⟨v, hv, he⟩
  · exact (hcause e hfail).mono (infix_callSequence _ _)
  · have hexecute : Semantics.concrete.execute (.function f) [v] = .error e := he
    refine .execution List.mem_cons_self ?_ hexecute (Function.fault he)
    intro w hw
    rw [List.mem_singleton.1 hw]
    exact ⟨es, infix_callSequence _ _, hv⟩

theorem closed_causeShape [Capacity] (hsem : sem.Suits P) : (causeShape sem P).Closed where
  text := hsem.short
  combine := by
    intro op a c hop ha hc hbinary
    have hsound := closed_soundShape hsem
    have ha' := ha.mono (refines_soundShape sem P)
    have hc' := hc.mono (refines_soundShape sem P)
    refine ⟨hsound.combine hop ha' hc' hbinary, ?_⟩
    intro e he
    obtain ⟨hleft, hright⟩ := infix_binarySequence a (.binary op) c op.precedence
    change (Deferral.combine op a c).outcome sem = .error e at he
    rw [outcome_combine hsem op ha' hc'] at he
    -- the left operand fails, or the right one, or the operator between them
    rcases Except.cases_of_bind_eq_error he with hfail | ⟨v, hv, he⟩
    · exact (ha.cause hsem hfail).mono hleft
    · rcases Except.cases_of_bind_eq_error he with hfail | ⟨w, hw, he⟩
      · exact (hc.cause hsem hfail).mono hright
      · have hexecute : Semantics.concrete.execute (.binary op) [v, w] = .error e := he
        refine .execution (List.mem_append_right _ List.mem_cons_self) ?_ hexecute (Binary.fault he)
        intro u hu
        rcases List.mem_cons.1 hu with rfl | hu
        · exact ⟨_, hleft, ha'.outcome_sequence.trans hv⟩
        · rw [List.mem_singleton.1 hu]
          exact ⟨_, hright, hc'.outcome_sequence.trans hw⟩
  call := by
    intro f a ha hnone
    have ha' := ha.mono (refines_soundShape sem P)
    refine ⟨(closed_soundShape hsem).call f ha' hnone, ?_⟩
    intro e he
    refine cause_call hsem ha'.reads.1 ?_ he
    intro e' he'
    rw [ha'.outcome_sequence] at he'
    exact ha.cause he'
  callGroup := by
    intro f ms hlength hsymbolic hms hfold
    have hms' : ∀ m ∈ ms, m.IsScalar (soundShape sem P) :=
      fun m hm => (hms m hm).mono (refines_soundShape sem P)
    refine ⟨(closed_soundShape hsem).callGroup f hlength hsymbolic hms' hfold, ?_⟩
    intro e he
    refine cause_call hsem (reads_joinMembers hsem hlength hms') ?_ he
    intro e' he'
    have hgroup : (Operand.group ms).Formed (causeShape sem P) := .group hlength hsymbolic hms
    exact hgroup.cause hsem he'

/-! ## Replays -/

/-- The errors of a variable under bindings: it is not bound, its value has no place in a
calculation, or the conversion of its value fails. -/
inductive Unresolved (b : Bindings) (name : String) : Error → Prop where
  | unprovided : b.find? name = none → Unresolved b name (.unprovidedVariable name)
  | unsupported {supplied : Supplied} {kind : ForeignKind} : b.find? name = some supplied →
    supplied.coerce = .ok (.unsupported kind) → Unresolved b name (.unsupportedVariable name kind)
  | coercion {supplied : Supplied} {cause : Limit} : b.find? name = some supplied →
    supplied.coerce = .error cause → Unresolved b name (.limit cause)

theorem unresolved_of_resolve {b : Bindings} {name : String}
    (h : b.resolve .unprovidedVariable name = .error e) : Unresolved b name e := by
  unfold Bindings.resolve at h
  split at h
  · cases h
    exact .unprovided ‹_›
  · split at h
    · cases h
      exact .coercion ‹_› ‹_›
    · cases h
      exact .unsupported ‹_› ‹_›
    · cases h

/-- Whether an error is about words that do not fit together or that mean nothing. -/
def Error.isStructural : Error → Bool
  | .unmatchedBracket _ | .unexecutable _ | .insufficientOperands _ | .noResult _ => true
  | .unknownVariable _ | .unsupportedToken .. => true
  | _ => false

theorem Unresolved.isStructural {b : Bindings} {name : String} (h : Unresolved b name e) :
    e.isStructural = false := by
  cases h <;> rfl

theorem Fault.isStructural [Capacity] {op : Operator} {operands : List Value}
    (h : Fault op operands e) :
    e.isStructural = false := by
  cases h <;> rfl

namespace Formula

variable {source : String} {f : Formula} {b : Bindings}

/-- The operand that is left of a compilation fails for a reason. -/
theorem cause_of_replay [Capacity] (hcompile : compile source = .ok f)
    (he : f.replay b = .error e) :
    Cause (Semantics.direct .unprovidedVariable b) f.sequence e := by
  have hsem : (Semantics.direct .unprovidedVariable b).Suits fun _ => True := {
    reducer := rfl
    number := rfl
    text := fun _ => rfl
    short := fun _ _ => trivial
    resolve := by
      intro name v hv
      obtain ⟨supplied, _, hcoerce⟩ := exists_of_resolve hv
      rcases cases_of_coerce hcoerce with ⟨x, rfl⟩ | ⟨s, _, rfl⟩
      · exact .number x
      · exact .text trivial }
  have hkeeps := (closed_causeShape hsem).keeps (r := Token.lex source) (fun _ _ _ => trivial)
    fun _ => trivial
  obtain ⟨a, ha, hf⟩ := Except.exists_of_bind_eq_ok hcompile
  obtain rfl := Except.ok.inj hf
  have hformed := hkeeps.result ha
  have hsequence := (hformed.mono (refines_soundShape _ _)).outcome_sequence
  rw [replay_eq] at he
  exact hformed.cause hsem (hsequence.symm.trans he)

/-- A replay comes to a value, or a variable of the formula cannot be resolved, or an operator of
the formula refuses the operands that it is executed on: they are not what it works on, it would
divide by zero, or a text would become too long. -/
theorem replay_outcomes [Capacity] (hcompile : compile source = .ok f) (b : Bindings) :
    (∃ v, f.replay b = .ok v) ∨
      ∃ e, f.replay b = .error e ∧ e.isStructural = false ∧
        ((∃ name ∈ f.variableNames, Unresolved b name e) ∨
          ∃ op operands, .operator op ∈ f.sequence ∧
            (∀ v ∈ operands, ∃ part, part <:+: f.sequence ∧
              replay ⟨part, source⟩ b = .ok v) ∧
            Semantics.concrete.execute op operands = .error e ∧ Fault op operands e) := by
  cases he : f.replay b with
  | ok v =>
    exact Or.inl ⟨v, rfl⟩
  | error e =>
    refine Or.inr ⟨e, rfl, ?_⟩
    cases cause_of_replay hcompile he with
    | resolution hmem hresolve =>
      have hunresolved := unresolved_of_resolve hresolve
      exact ⟨hunresolved.isStructural, Or.inl ⟨_, mem_variableNames.2 hmem, hunresolved⟩⟩
    | @execution op operands _ hmem hparts hexecute hfault =>
      refine ⟨hfault.isStructural, Or.inr ⟨op, operands, hmem, ?_, hexecute, hfault⟩⟩
      intro v hv
      obtain ⟨part, hpart, hv⟩ := hparts v hv
      exact ⟨part, hpart, (replay_eq _ b).trans hv⟩

/-- A source that is not well-formed, and that is taken all the same: its sum refuses a text. -/
theorem replay_outcomes_of_postfix :
    ∃ f, compile "1 $x +" = .ok f ∧ ∃ e, f.replay [("x", .text "a")] = .error e ∧
      e.isStructural = false ∧
        ((∃ name ∈ f.variableNames, Unresolved [("x", .text "a")] name e) ∨
          ∃ op operands, .operator op ∈ f.sequence ∧
            (∀ v ∈ operands, ∃ part, part <:+: f.sequence ∧
              replay ⟨part, "1 $x +"⟩ [("x", .text "a")] = .ok v) ∧
            Semantics.concrete.execute op operands = .error e ∧ Fault op operands e) := by
  let f : Formula :=
    ⟨[.constant (.number 1) [], .operator (.binary .add), .marker "x"], "1 $x +"⟩
  have hcompile : compile "1 $x +" = .ok f := by decide +kernel
  have hfails : ∀ v, f.replay [("x", .text "a")] ≠ .ok v := by
    have hnone : (f.replay [("x", .text "a")]).toOption = none := by decide +kernel
    intro v hv
    rw [hv] at hnone
    cases hnone
  rcases replay_outcomes hcompile [("x", .text "a")] with ⟨v, hv⟩ | hfailure
  · exact absurd hv (hfails v)
  · exact ⟨f, hcompile, hfailure⟩

/-- A text can be repeated so often that there is no memory for it, although neither the count nor
the length is refused. -/
theorem replay_outOfMemory :
    ¬∀ source f b, compile source = .ok f → ∀ e, f.replay b = .error e →
      (∃ name, Unresolved b name e) ∨ (∃ op mismatch, e = .invalidArguments op mismatch) ∨
        (∃ op, e = .divisionByZero op) ∨ e = .limit .repeatCountTooLarge ∨
          e = .limit .repeatTooLong := by
  intro hall
  let f : Formula := ⟨[.marker "s", .operator (.binary .mul), .marker "n"], "$s * $n"⟩
  have hcompile : compile "$s * $n" = .ok f := by decide +kernel
  have hreplay : f.replay [("s", .text "a"), ("n", .number 1e18)] =
      .error (.limit .outOfMemory) := by
    decide +kernel
  rcases hall _ f _ hcompile _ hreplay with ⟨name, h⟩ | ⟨op, mismatch, h⟩ | ⟨op, h⟩ | h | h
  · -- both variables are bound to values that need no conversion
    cases h with
    | @coercion supplied cause hfind hcoerce =>
      have hbound : supplied = .text "a" ∨ supplied = .number 1e18 := by
        simp only [Bindings.find?, List.lookup] at hfind
        split at hfind
        · exact Or.inl (Option.some.inj hfind).symm
        · split at hfind
          · exact Or.inr (Option.some.inj hfind).symm
          · cases hfind
      rcases hbound with rfl | rfl
      · cases hcoerce
      · cases hcoerce
  · cases h
  · cases h
  · cases h
  · cases h

end Formula

end Reckon

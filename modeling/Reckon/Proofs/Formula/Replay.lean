import Reckon.Proofs.Evaluation.Missing
import Reckon.Proofs.Evaluation.Suspension
import Reckon.Proofs.Formula.Rewriting

/-!
# Replay — a formula comes to what its source comes to

A compilation takes the same steps as an evaluation that puts its work off, and each of its operands
stands for the outcome that this evaluation keeps in the same place.  So the sequence that is left
at the end comes to the outcome that is left at the end, and that is the outcome of the evaluation
which does its work at once.

* `Formula.standing` — compiled operands next to the outcomes that they stand for;
* `Formula.ofReading_of_compile` — the outcome of the sequence of a formula;
* `Formula.replay_eq_evaluate` — the outcome of a replay.

The order of errors needs no argument of its own: outcomes are put together from the bottom of the
stack to its top, as the sequences are from left to right.
-/

namespace Reckon
namespace Formula

open Operand Evaluation

section

variable [Capacity]

/-- A compilation, and an evaluation that puts its work off; every operand stands for the outcome
next to it. -/
def standing (sem : Semantics Value) : Comparison Operand (Except Error Value) where
  left := Semantics.symbolic
  right := sem.suspended
  SameOperand a o := a.Formed (soundShape sem IsShort) ∧ a.outcome sem = o
  SameError := (· = ·)

variable {sem : Semantics Value} {source : String}

theorem fair_standing (hsem : sem.Suits IsShort)
    (htokens : ∀ t ∈ (Token.lex source).tokens, t.kind = .text → IsShort t.text) :
    (standing sem).Fair (Token.lex source) where
  number x := by
    have hx : sem.number x = .number x := congrFun hsem.number x
    exact ⟨Shape.formed_number x, congrArg Except.ok hx.symm⟩
  text t ht hkind := by
    have hs : sem.text t.text = .text t.text := hsem.text t.text
    have htext : (Value.text t.text).IsScalar IsShort := .text (htokens t ht hkind)
    exact ⟨.scalar (isScalar_value htext), congrArg Except.ok hs.symm⟩
  error _ _ := rfl
  failure _ _ := rfl

/-! ## Merged operands -/

/-- What makes it right to merge operands: those that are merged come to the same, and a difference
of them is a difference of finite numbers. -/
structure MergesSoundly (sem : Semantics Value) (source : String) : Prop where
  same : ∀ {op a c}, Merges source op a c → a.outcome sem = c.outcome sem
  finite : ∀ {a c}, Merges source .sub a c →
    ∃ x, a.outcome sem = .ok (.number x) ∧ x.isFinite = true

theorem Merges.outcome_sequence {op : Binary} {a c : Operand} (h : Merges source op a c) :
    a.outcome sem = outcome sem a.sequence ∧ c.outcome sem = outcome sem c.sequence := by
  obtain ⟨ha, hc⟩ := value?_of_sameSymbol h.same
  constructor
  · simp only [Operand.outcome, ha]
  · simp only [Operand.outcome, hc]

/-- Merging is right if the sequences of merged operands are the same. -/
theorem mergesSoundly_of_replay {b : Bindings}
    (hmerge : ∀ op a c, Merges source op a c →
      a.sequence.map Element.unmarked = c.sequence.map Element.unmarked)
    (hfinite : ∀ a c, Merges source .sub a c →
      ∃ x, replay ⟨a.sequence, source⟩ b = .ok (.number x) ∧ x.isFinite = true) :
    MergesSoundly (Semantics.direct .unprovidedVariable b) source where
  same := by
    intro op a c h
    rw [h.outcome_sequence.1, h.outcome_sequence.2]
    have hreplay := replay_unmarked (hmerge op a c h) source b
    rw [replay_eq, replay_eq] at hreplay
    exact hreplay
  finite := by
    intro a c h
    obtain ⟨x, hx, hxfinite⟩ := hfinite a c h
    rw [replay_eq] at hx
    exact ⟨x, by rw [h.outcome_sequence.1, hx], hxfinite⟩

/-! ## The compilation -/

theorem agree_standing {o : Except Error Operand} {o' : Except Error Value}
    (h : ∀ a, o = .ok a → a.Formed (soundShape sem IsShort) ∧ a.outcome sem = o')
    (hfails : ¬∃ e, o = .error e) :
    (standing sem).Agree (standing sem).SameOperand o (.ok o') := by
  cases o with
  | error e =>
    exact absurd ⟨e, rfl⟩ hfails
  | ok a =>
    exact .ok (h a rfl)

/-- The two part only where the compilation fails. -/
theorem exists_error_of_parting (hsem : sem.Suits IsShort) (hsound : MergesSoundly sem source)
    {x : Step Operand} {y : Step (Except Error Value)} (hx : x ∈ session source)
    (hpart : (standing sem).Parting x y) : ∃ e, Semantics.symbolic.take x = .error e := by
  have hclosed := closed_soundShape hsem
  -- if the compilation goes on, its operand stands for what the suspended evaluation keeps
  by_contra hfails
  cases hpart with
  | resolution name hdiffer =>
    refine hdiffer (agree_standing (fun a ha => ?_) hfails)
    rw [Semantics.eq_of_resolve_symbolic ha]
    exact ⟨.scalar (.marker trivial), outcome_marker sem name⟩
  | @binary op a c v w hav hcw hdiffer =>
    obtain ⟨ha, rfl⟩ := hav
    obtain ⟨hc, rfl⟩ := hcw
    refine hdiffer (agree_standing (fun z hz => ⟨hclosed.binary ha hc hz, ?_⟩) hfails)
    have hmerges : op = .add ∨ op = .sub → a.sameSymbol c = true → Merges source op a c :=
      fun hop hsame => ⟨hx, hop, hsame⟩
    rw [binary_of_suits hsem]
    refine Deferral.outcome_binary hsem ha hc ?_ ?_ hz
    · intro hop hsame
      exact hsound.same (hmerges hop hsame)
    · rintro rfl hsame
      exact hsound.finite (hmerges (Or.inr rfl) hsame)
  | @function f a v hav hdiffer =>
    obtain ⟨ha, rfl⟩ := hav
    refine hdiffer (agree_standing (fun z hz => ⟨hclosed.function ha hz, ?_⟩) hfails)
    rw [function_of_suits hsem]
    exact Deferral.outcome_function hsem ha hz

/-- The sequence of a formula comes to the outcome of its source. -/
theorem ofReading_of_compile (hsem : sem.Suits IsShort) (hsound : MergesSoundly sem source)
    (htokens : ∀ t ∈ (Token.lex source).tokens, t.kind = .text → IsShort t.text) {f : Formula}
    (hcompile : compile source = .ok f) :
    outcome sem f.sequence = ofReading sem (Token.lex source) := by
  rw [compile_eq] at hcompile
  obtain ⟨a, ha, hcompile⟩ := Except.exists_of_bind_eq_ok hcompile
  obtain rfl := Except.ok.inj hcompile
  have hleft : (traced (standing sem).left (Token.lex source)).result = .ok a := ha
  cases Comparison.lockstep_traced (fair_standing hsem htokens) with
  | apart _ hpart hx _ =>
    -- the compilation would have ended at that step
    obtain ⟨e, he⟩ := exists_error_of_parting hsem hsound hx.mem hpart
    rw [(hx.result he).2] at hleft
    cases hleft
  | together _ hresult =>
    rw [hleft] at hresult
    generalize hright : (traced (standing sem).right (Token.lex source)).result = r at hresult
    cases hresult with
    | @ok _ o hao =>
      obtain ⟨hformed, rfl⟩ := hao
      rw [result_traced] at hright
      rw [ofReading_of_suspended sem hright]
      exact hformed.outcome_sequence

end

/-! ## Bound variables -/

/-- A value that a supplied one is taken for is a number or the supplied text itself. -/
theorem cases_of_coerce {supplied : Supplied} {v : Value}
    (h : supplied.coerce = .ok (.value v)) :
    (∃ x, v = .number x) ∨ ∃ s, supplied = .text s ∧ v = .text s := by
  have hwithin : ∀ {cause o}, Supplied.within cause o = .ok (.value v) → ∃ x, v = .number x := by
    intro cause o h
    cases o with
    | none =>
      cases h
    | some x =>
      cases h
      exact ⟨x, rfl⟩
  unfold Supplied.coerce at h
  split at h
  · cases h
    exact Or.inl ⟨_, rfl⟩
  · cases h
    exact Or.inr ⟨_, rfl, rfl⟩
  · exact Or.inl (hwithin h)
  · cases h
  · cases h
    exact Or.inl ⟨_, rfl⟩
  · exact Or.inl (hwithin h)
  · cases h

theorem exists_of_resolve {missing : String → Error} {b : Bindings} {name : String} {v : Value}
    (h : b.resolve missing name = .ok v) :
    ∃ supplied, b.find? name = some supplied ∧ supplied.coerce = .ok (.value v) := by
  unfold Bindings.resolve at h
  split at h
  · cases h
  · rename_i supplied hfind
    split at h
    · cases h
    · cases h
    · rename_i w hcoerce
      cases h
      exact ⟨supplied, hfind, hcoerce⟩


theorem suits_direct [Capacity] {b : Bindings} (missing : String → Error)
    (hbound : ∀ name s, b.find? name = some (.text s) → IsShort s) :
    (Semantics.direct missing b).Suits IsShort where
  reducer := rfl
  number := rfl
  text _ := rfl
  short := holdsOfShort_isShort
  resolve := by
    intro name v hv
    change b.resolve missing name = .ok v at hv
    obtain ⟨supplied, hfind, hcoerce⟩ := exists_of_resolve hv
    cases cases_of_coerce hcoerce with
    | inl hnumber =>
      obtain ⟨x, rfl⟩ := hnumber
      exact .number x
    | inr htext =>
      obtain ⟨s, rfl, rfl⟩ := htext
      exact .text (hbound name s hfind)

/-- A formula that is replayed comes to what an evaluation of its source comes to, with the same
bindings: the same value or the same error. -/
theorem replay_eq_evaluate [Capacity] {source : String} {f : Formula}
    (hcompile : compile source = .ok f) {b : Bindings}
    (hmerge : ∀ op a c, Merges source op a c →
      a.sequence.map Element.unmarked = c.sequence.map Element.unmarked)
    (hfinite : ∀ a c, Merges source .sub a c →
      ∃ x, replay ⟨a.sequence, source⟩ b = .ok (.number x) ∧ x.isFinite = true)
    (htokens : ∀ t ∈ (Token.lex source).tokens, t.kind = .text → t.text.length < 2 ^ 62)
    (hbound : ∀ name s, b.find? name = some (.text s) → s.length < 2 ^ 62) :
    f.replay b = (evaluate source b).mapError Error.asUnprovided := by
  have hsem : (Semantics.direct .unprovidedVariable b).Suits IsShort := suits_direct _ hbound
  have hsound : MergesSoundly (Semantics.direct .unprovidedVariable b) source :=
    mergesSoundly_of_replay hmerge hfinite
  have hshort : ∀ t ∈ (Token.lex source).tokens, t.kind = .text → IsShort t.text := by
    intro t ht hkind
    rw [IsShort, CodeText.length_ofString]
    exact htokens t ht hkind
  calc f.replay b
      = outcome (Semantics.direct .unprovidedVariable b) f.sequence := replay_eq f b
    _ = ofReading (Semantics.direct .unprovidedVariable b) (Token.lex source) :=
        ofReading_of_compile hsem hsound hshort hcompile
    _ = (evaluate source b).mapError Error.asUnprovided := evaluate_unprovided source b

/-- A sum of a text with itself, and a difference of a number with itself. -/
theorem replay_eq_evaluate_of_sum :
    ∃ f, compile "$s + $s + 'c' * ($x - $x)" = .ok f ∧
      f.replay [("s", .text "a"), ("x", .number 4)] =
        (evaluate "$s + $s + 'c' * ($x - $x)" [("s", .text "a"), ("x", .number 4)]).mapError
          Error.asUnprovided := by
  have hsome : (compile "$s + $s + 'c' * ($x - $x)").isOk = true := by decide +kernel
  obtain ⟨f, hcompile⟩ := Except.exists_of_isOk hsome
  refine ⟨f, hcompile, replay_eq_evaluate hcompile ?_ ?_ (by decide +kernel) ?_⟩
  · intro op a c hmerges
    rcases hmerges.additive with rfl | rfl
    · exact of_decide_eq_true (hmerges.of_all
        (fun a c => a.sequence.map Element.unmarked = c.sequence.map Element.unmarked)
        (by decide +kernel))
    · exact of_decide_eq_true (hmerges.of_all
        (fun a c => a.sequence.map Element.unmarked = c.sequence.map Element.unmarked)
        (by decide +kernel))
  · intro a c hmerges
    have hreplay := of_decide_eq_true (hmerges.of_all
      (fun a _ => (replay ⟨a.sequence, "$s + $s + 'c' * ($x - $x)"⟩
        [("s", .text "a"), ("x", .number 4)]).toOption = some (.number 4))
      (by decide +kernel))
    exact ⟨4, Except.toOption_eq_some.1 hreplay, by decide +kernel⟩
  · intro name s hfind
    simp only [Bindings.find?, List.lookup] at hfind
    split at hfind
    · cases hfind
      decide
    · split at hfind
      · cases hfind
      · cases hfind

end Formula

end Reckon

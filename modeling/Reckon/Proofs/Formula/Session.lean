import Reckon.Formula
import Reckon.Proofs.Evaluation.Trace
import Reckon.Proofs.Formula.Folding
import Reckon.Proofs.Token.Word

/-!
# Session — what happens while a formula is compiled

Compiling a source text is an evaluation on symbolic operands, and its steps are the session of the
text.  A step on operands that have values is executed; every other step defers its operator:

* `Formula.session`, `evaluationSteps` — the steps of a compilation and of an evaluation;
* `Formula.resolve_of_session` — the variables of a source text are left open;
* `Formula.Merges` — the session finds the two operands of a sum or a difference to be the same;
* `Deferral.binary_of_symbolic`, `Deferral.exists_of_deferCall` — deferring never fails, and what is
  deferred has no value, unless a difference of equal symbols was found to be zero;
* `Deferral.exists_of_binary_error`, `Deferral.exists_of_function_error` — what fails is an operator
  that is executed on values.
-/

namespace Reckon

open Operand

section

variable [Capacity]

/-- The steps in which a source text is evaluated. -/
def evaluationSteps (source : String) (b : Bindings) : List (Step Value) :=
  (Evaluation.traced (Semantics.direct .unknownVariable b) (Token.lex source)).steps

namespace Formula

/-- The steps in which a source text is compiled. -/
def session (source : String) : List (Step Operand) :=
  (Evaluation.traced Semantics.symbolic (Token.lex source)).steps

/-- A variable of a source text has a name, so it is left open. -/
theorem resolve_of_session {source name : String} (h : .resolution name ∈ session source) :
    Semantics.symbolic.resolve name = .ok (.marker name) := by
  obtain ⟨t, ht, hkind, rfl⟩ := Evaluation.exists_token_of_resolution h
  exact Semantics.resolve_symbolic (Token.isName_of_lex ht hkind).ne_empty

/-- In the session of a source text a sum or a difference is met whose operands are the same
symbol. -/
structure Merges (source : String) (op : Binary) (a c : Operand) : Prop where
  mem : .reduction (.binary op) [a, c] ∈ session source
  additive : op = .add ∨ op = .sub
  same : a.sameSymbol c = true

/-- Whether a step is an operator on two operands that are the same symbol and satisfy `p`. -/
def isMerge (op : Binary) (p : Operand → Operand → Bool) : Step Operand → Bool
  | .reduction (.binary op') [a, c] => op' = op && a.sameSymbol c && p a c
  | _ => false

/-- What a look through the session finds of all merged operands holds of each of them. -/
theorem Merges.of_all {source : String} {op : Binary} {a c : Operand}
    (hmerges : Merges source op a c) (p : Operand → Operand → Bool)
    (h : (session source).all fun s => !isMerge op (fun a c => !p a c) s) : p a c = true := by
  have hstep := List.all_eq_true.1 h _ hmerges.mem
  simpa [isMerge, hmerges.same] using hstep

theorem not_merges {source : String} {op : Binary}
    (h : (session source).all fun s => !isMerge op (fun _ _ => true) s) (a c : Operand) :
    ¬Merges source op a c := by
  intro hmerges
  have hfalse : false = true := hmerges.of_all (fun _ _ => false) h
  cases hfalse

theorem exists_merges (source : String) (op : Binary) (p : Operand → Operand → Bool)
    (hop : op = .add ∨ op = .sub) (h : (session source).any (isMerge op p) = true) :
    ∃ a c, Merges source op a c ∧ p a c = true := by
  obtain ⟨s, hs, hmerge⟩ := List.any_eq_true.1 h
  unfold isMerge at hmerge
  split at hmerge
  · rename_i op' a c
    simp only [Bool.and_eq_true, decide_eq_true_eq] at hmerge
    obtain ⟨⟨rfl, hsame⟩, hp⟩ := hmerge
    exact ⟨a, c, ⟨hs, hop, hsame⟩, hp⟩
  · cases hmerge

/-- The operand that is left at the end of a compilation makes the formula. -/
theorem compile_eq (source : String) :
    compile source =
      (Evaluation.traced Semantics.symbolic (Token.lex source)).result >>= fun a =>
        .ok { sequence := a.sequence, source } := by
  rw [Evaluation.result_traced]
  rfl

/-- A compilation fails by what its evaluation fails by. -/
theorem result_of_compile_error {source : String} {e : Error} (h : compile source = .error e) :
    (Evaluation.traced Semantics.symbolic (Token.lex source)).result = .error e := by
  rw [compile_eq] at h
  rcases Except.cases_of_bind_eq_error h with hresult | ⟨a, -, h⟩
  · exact hresult
  · cases h

end Formula

end

/-! ## Operands with and without values -/

namespace Operand

theorem isSymbolic_iff {a : Operand} : a.isSymbolic = true ↔ a.value? = none :=
  Option.isNone_iff_eq_none

/-- Operands that are the same symbol are two markers or two operations. -/
theorem sameSymbol_cases {a c : Operand} (h : a.sameSymbol c = true) :
    (∃ name, a = .marker name ∧ c = .marker name) ∨
      ∃ es es' origin p p', a = .deferred es origin p ∧ c = .deferred es' origin p' ∧
        Element.sequencesAgree es es' = true := by
  unfold sameSymbol at h
  split at h
  · rw [decide_eq_true_eq] at h
    subst h
    exact Or.inl ⟨_, rfl, rfl⟩
  · unfold sameAs at h
    split at h
    · rw [Bool.and_eq_true, decide_eq_true_eq] at h
      obtain ⟨rfl, hsequences⟩ := h
      exact Or.inr ⟨_, _, _, _, _, rfl, rfl, hsequences⟩
    · cases h

theorem value?_of_sameSymbol {a c : Operand} (h : a.sameSymbol c = true) :
    a.value? = none ∧ c.value? = none := by
  rcases sameSymbol_cases h with ⟨name, rfl, rfl⟩ | ⟨es, es', origin, p, p', rfl, rfl, _⟩
  · exact ⟨rfl, rfl⟩
  · exact ⟨rfl, rfl⟩

theorem value?_of_isScalarSymbol {a : Operand} (h : a.isScalarSymbol = true) : a.value? = none := by
  unfold isScalarSymbol at h
  split at h
  · rfl
  · rfl
  · cases h

end Operand

namespace Deferral

/-! ## Steps on values -/

theorem binary_of_values [Capacity] {op : Binary} {a c : Operand} {v w : Value}
    (ha : a.value? = some v)
    (hc : c.value? = some w) :
    binary op a c = op.execute v w >>= fun u =>
      .ok (marked u (if op = .comma then a.marks ++ c.marks else [])) := by
  simp only [binary, ha, hc]
  rfl

theorem function_of_value {f : Function} {a : Operand} {v : Value} (ha : a.value? = some v) :
    function f a = f.execute v >>= fun w => .ok (marked w (resultMarks f v a.marks)) := by
  simp only [function, ha]
  rfl

/-! ## Steps that are deferred -/

theorem binary_of_symbolic [Capacity] {op : Binary} {a c : Operand}
    (h : a.value? = none ∨ c.value? = none) : binary op a c = .ok (deferBinary op a c) := by
  unfold binary
  rcases h with h | h
  · rw [h]
  · rw [h]
    cases a.value? <;> rfl

theorem value?_deferBinary {op : Binary} {a c : Operand}
    (h : op = .sub → a.sameSymbol c = false) : (deferBinary op a c).value? = none := by
  cases op with
  | comma =>
    rfl
  | add =>
    simp only [deferBinary]
    split <;> rfl
  | sub =>
    simp only [deferBinary, h rfl]
    rfl
  | mul =>
    simp only [deferBinary]
    -- a factor that is left by itself is symbolic
    split
    · rename_i hone
      rw [Bool.and_eq_true] at hone
      exact value?_of_isScalarSymbol hone.1
    · split
      · rename_i hone
        rw [Bool.and_eq_true] at hone
        exact value?_of_isScalarSymbol hone.1
      · rfl
  | div =>
    rfl
  | rem =>
    rfl

/-- A symbol times two is a product that is left as it is. -/
theorem binary_double [Capacity] {a c : Operand} (hsame : a.sameSymbol c = true) :
    binary .mul a (value (.number 2)) = .ok (combine .mul a (value (.number 2))) := by
  have htwo : isOne (value (.number 2)) = false := by decide +kernel
  rw [binary_of_symbolic (Or.inl (value?_of_sameSymbol hsame).1)]
  simp only [deferBinary, htwo, Bool.and_false]
  rfl

theorem function_of_symbolic {f : Function} {a : Operand} (h : a.value? = none) :
    function f a = deferCall (.function f) a := by
  simp only [function, h]

/-- A function that is called with a group takes its members as they are folded. -/
theorem deferCall_group (f : Function) (members : List Operand) :
    ∃ members', deferCall (.function f) (.group members) =
        .ok (call (.function f) (joinMembers members') members') ∧ Folds f members members' ∧
      foldMembers (.function f) members = .ok members' := by
  obtain ⟨members', hfold, hfolds⟩ := folds_foldMembers f members
  refine ⟨members', ?_, hfolds, hfold⟩
  simp only [deferCall, hfold]
  rfl

theorem exists_of_deferCall (f : Function) (a : Operand) :
    ∃ c, deferCall (.function f) a = .ok c ∧ c.value? = none := by
  cases a with
  | atom e =>
    exact ⟨_, rfl, rfl⟩
  | deferred es origin p =>
    exact ⟨_, rfl, rfl⟩
  | group members =>
    obtain ⟨members', hcall, _⟩ := deferCall_group f members
    exact ⟨_, hcall, rfl⟩

/-! ## Steps that fail -/

/-- A deferred operator does not fail. -/
theorem exists_of_binary_error [Capacity] {op : Binary} {a c : Operand} {e : Error}
    (h : binary op a c = .error e) :
    ∃ v w, a.value? = some v ∧ c.value? = some w ∧ op.execute v w = .error e := by
  cases ha : a.value? with
  | none =>
    rw [binary_of_symbolic (Or.inl ha)] at h
    cases h
  | some v =>
    cases hc : c.value? with
    | none =>
      rw [binary_of_symbolic (Or.inr hc)] at h
      cases h
    | some w =>
      rw [binary_of_values ha hc] at h
      rcases Except.cases_of_bind_eq_error h with hexecute | ⟨u, -, h⟩
      · exact ⟨v, w, rfl, rfl, hexecute⟩
      · cases h

theorem exists_of_function_error {f : Function} {a : Operand} {e : Error}
    (h : function f a = .error e) : ∃ v, f.execute v = .error e := by
  cases ha : a.value? with
  | none =>
    -- a call that is deferred does not fail, as its list is folded only where that succeeds
    obtain ⟨c, hc, -⟩ := exists_of_deferCall f a
    rw [function_of_symbolic ha, hc] at h
    cases h
  | some v =>
    rw [function_of_value ha] at h
    rcases Except.cases_of_bind_eq_error h with hexecute | ⟨u, -, h⟩
    · exact ⟨v, hexecute⟩
    · cases h

end Deferral

end Reckon

import Reckon.Proofs.Evaluation.Lockstep
import Reckon.Proofs.Formula.Session

/-!
# Failure — errors of a compilation

A compilation and an evaluation of the same text take the same steps on operands with the same
values.  They part only where the evaluation has to use something that the compilation leaves open:

* `Formula.StopsAt` — a step at which an evaluation fails and a compilation goes on;
* `Formula.compile_error_genuine` — an error of a compilation is the error of every evaluation,
  unless the evaluation has stopped before at such a step; without variables both come to the same.
-/

namespace Reckon
namespace Formula

open Operand Evaluation

section

variable [Capacity]

/-- A step of a compilation that goes on where the step of the evaluation fails: a variable has no
value, or an operator with a symbolic operand refuses the values. -/
inductive StopsAt (b : Bindings) : Step Operand → Step Value → Error → Prop where
  | unbound {name : String} : b.find? name = none →
    StopsAt b (.resolution name) (.resolution name) (.unknownVariable name)
  | unsupported {name : String} {supplied : Supplied} {kind : ForeignKind} :
    b.find? name = some supplied → supplied.coerce = .ok (.unsupported kind) →
      StopsAt b (.resolution name) (.resolution name) (.unsupportedVariable name kind)
  | outOfRange {name : String} {supplied : Supplied} {cause : Limit} :
    b.find? name = some supplied → supplied.coerce = .error cause →
      StopsAt b (.resolution name) (.resolution name) (.limit cause)
  | deferred {op : Operator} {operands : List Operand} {values : List Value} {e : Error} :
    operands.any isSymbolic = true → Semantics.concrete.execute op values = .error e →
      StopsAt b (.reduction op operands) (.reduction op values) e

/-- An evaluation ends with an error at a step behind which the compilation goes on. -/
def StopsEarly (source : String) (b : Bindings) (e : Error) : Prop :=
  ∃ before x y, evaluationSteps source b = before ++ [y] ∧
    (session source)[before.length]? = some x ∧ (∃ a, Semantics.symbolic.take x = .ok a) ∧
      StopsAt b x y e

/-! ## Operands with known values -/

/-- A compilation and an evaluation; an operand that has a value has it in the evaluation, too. -/
def known (b : Bindings) : Comparison Operand Value where
  left := Semantics.symbolic
  right := Semantics.direct .unknownVariable b
  SameOperand a v := ∀ w, a.value? = some w → v = w
  SameError := (· = ·)

theorem fair_known (b : Bindings) (r : Reading) : (known b).Fair r where
  number x := by
    rintro w ⟨⟩
    rfl
  text t _ _ := by
    rintro w ⟨⟩
    rfl
  error _ _ := rfl
  failure _ _ := rfl

variable {b : Bindings}

theorem agree_known_of_value {o : Except Error Value} {marks : Value → List (Option Nat)} :
    (known b).Agree (known b).SameOperand (o >>= fun u => .ok (marked u (marks u))) o := by
  cases o with
  | error e =>
    exact .error rfl
  | ok u =>
    refine .ok ?_
    rintro w ⟨⟩
    rfl

/-- Where a deferred operator parts the two, the evaluation has failed. -/
theorem exists_error_of_not_agree {a : Operand} (ha : a.value? = none) {o : Except Error Value}
    (h : ¬(known b).Agree (known b).SameOperand (.ok a) o) : ∃ e, o = .error e := by
  cases o with
  | error e =>
    exact ⟨e, rfl⟩
  | ok v =>
    refine absurd (.ok ?_) h
    intro w hw
    rw [ha] at hw
    cases hw

theorem stopsAt_of_resolve {name : String} {e : Error}
    (h : b.resolve .unknownVariable name = .error e) :
    StopsAt b (.resolution name) (.resolution name) e := by
  unfold Bindings.resolve at h
  split at h
  · cases h
    exact .unbound ‹_›
  · split at h
    · cases h
      exact .outOfRange ‹_› ‹_›
    · cases h
      exact .unsupported ‹_› ‹_›
    · cases h

/-- The two part where the evaluation stops and the compilation goes on. -/
theorem stopsAt_of_parting {source : String} {x : Step Operand} {y : Step Value}
    (hx : x ∈ session source) (h : (known b).Parting x y)
    (hcancel : ∀ a c, x = .reduction (.binary .sub) [a, c] → a.sameSymbol c = false) :
    ∃ a e, Semantics.symbolic.take x = .ok a ∧
      (Semantics.direct .unknownVariable b).take y = .error e ∧ StopsAt b x y e := by
  cases h with
  | resolution name hdiffer =>
    have hmarker : (known b).left.resolve name = .ok (.marker name) := resolve_of_session hx
    rw [hmarker] at hdiffer
    obtain ⟨e, he⟩ := exists_error_of_not_agree rfl hdiffer
    exact ⟨_, e, hmarker, he, stopsAt_of_resolve he⟩
  | @binary op a c v w hav hcw hdiffer =>
    -- a deferred operator does not fail, and one on two values is executed on both sides
    by_cases hsymbolic : a.value? = none ∨ c.value? = none
    · have hleft : (known b).left.binary op a c = .ok (Deferral.deferBinary op a c) :=
        Deferral.binary_of_symbolic hsymbolic
      -- the only deferred operator with a value is the difference of equal symbols
      have hnone : (Deferral.deferBinary op a c).value? = none := by
        refine Deferral.value?_deferBinary ?_
        rintro rfl
        exact hcancel a c rfl
      rw [hleft] at hdiffer
      obtain ⟨e, he⟩ := exists_error_of_not_agree hnone hdiffer
      refine ⟨_, e, hleft, he, .deferred ?_ he⟩
      simpa [isSymbolic] using hsymbolic
    · obtain ⟨v', hv'⟩ := Option.ne_none_iff_exists'.1 fun h => hsymbolic (Or.inl h)
      obtain ⟨w', hw'⟩ := Option.ne_none_iff_exists'.1 fun h => hsymbolic (Or.inr h)
      obtain rfl : v = v' := hav v' hv'
      obtain rfl : w = w' := hcw w' hw'
      have hleft : (known b).left.binary op a c = op.execute v w >>= fun u => .ok (marked u _) :=
        Deferral.binary_of_values hv' hw'
      rw [hleft] at hdiffer
      exact absurd agree_known_of_value hdiffer
  | @function f a v hav hdiffer =>
    cases ha : a.value? with
    | none =>
      obtain ⟨c, hcall, hnone⟩ := Deferral.exists_of_deferCall f a
      have hleft : (known b).left.function f a = .ok c := by
        rw [← hcall]
        exact Deferral.function_of_symbolic ha
      rw [hleft] at hdiffer
      obtain ⟨e, he⟩ := exists_error_of_not_agree hnone hdiffer
      refine ⟨c, e, hleft, he, .deferred ?_ he⟩
      simp [isSymbolic, ha]
    | some v' =>
      obtain rfl : v = v' := hav v' ha
      have hleft : (known b).left.function f a = f.execute v >>= fun u => .ok (marked u _) :=
        Deferral.function_of_value ha
      rw [hleft] at hdiffer
      exact absurd agree_known_of_value hdiffer

/-- The error of a compilation is met by every evaluation that gets so far. -/
theorem evaluate_error_of_compile {source : String}
    (hcancel : ∀ a c, ¬Merges source .sub a c) {e : Error} (h : compile source = .error e)
    (b : Bindings) :
    evaluate source b = .error e ∨
      ∃ e', evaluate source b = .error e' ∧ StopsEarly source b e' := by
  have hleft : (traced (known b).left (Token.lex source)).result = .error e :=
    result_of_compile_error h
  have hright : evaluate source b = (traced (known b).right (Token.lex source)).result :=
    (result_traced _ _).symm
  rw [hright]
  cases Comparison.lockstep_traced (fair_known b (Token.lex source)) with
  | together _ hresult =>
    -- no step has parted the two, so they end with the same error
    rw [hleft] at hresult
    generalize hright' : (traced (known b).right (Token.lex source)).result = o at hresult
    cases hresult with
    | error he =>
      exact Or.inl (congrArg _ he.symm)
  | @apart before before' x y hbefore hpart hx hy =>
    right
    -- the first step that parts them is the last one of the evaluation
    obtain ⟨a, e', ha, he', hstops⟩ := stopsAt_of_parting hx.mem hpart fun a c hac => by
      cases hsame : a.sameSymbol c with
      | false =>
        rfl
      | true =>
        exact absurd ⟨hac ▸ hx.mem, Or.inr rfl, hsame⟩ (hcancel a c)
    obtain ⟨hsteps, hresult⟩ := hy.result he'
    refine ⟨e', hresult, before', x, y, hsteps, ?_, ⟨a, ha⟩, hstops⟩
    rw [← hbefore.length_eq]
    exact hx.getElem?

/-! ## Texts without variables -/

/-- A compilation and an evaluation; every operand is a constant with the value of the other one. -/
def constant (b : Bindings) : Comparison Operand Value where
  left := Semantics.symbolic
  right := Semantics.direct .unknownVariable b
  SameOperand a v := ∃ marks, a = .atom (.constant v marks)
  SameError := (· = ·)

theorem fair_constant (b : Bindings) (r : Reading) : (constant b).Fair r where
  number _ := ⟨[], rfl⟩
  text _ _ _ := ⟨[], rfl⟩
  error _ _ := rfl
  failure _ _ := rfl

theorem agree_constant_of_value {o : Except Error Value} {marks : Value → List (Option Nat)} :
    (constant b).Agree (constant b).SameOperand (o >>= fun u => .ok (marked u (marks u))) o := by
  cases o with
  | error e =>
    exact .error rfl
  | ok u =>
    exact .ok ⟨_, rfl⟩

/-- Nothing but a variable parts the two. -/
theorem exists_resolution_of_parting {x : Step Operand} {y : Step Value}
    (h : (constant b).Parting x y) : ∃ name, x = .resolution name := by
  cases h with
  | resolution name _ =>
    exact ⟨name, rfl⟩
  | @binary op a c v w hav hcw hdiffer =>
    obtain ⟨ms, rfl⟩ := hav
    obtain ⟨ns, rfl⟩ := hcw
    exact absurd agree_constant_of_value hdiffer
  | @function f a v hav hdiffer =>
    obtain ⟨ms, rfl⟩ := hav
    exact absurd agree_constant_of_value hdiffer

theorem replay_constant (v : Value) (marks : List (Option Nat)) (source : String) (b : Bindings) :
    replay ⟨[.constant v marks], source⟩ b = .ok v := rfl

theorem compile_of_no_marker {source : String}
    (hmarker : ∀ t ∈ (Token.lex source).tokens, t.isMarker = false) (b : Bindings) :
    (∃ e, compile source = .error e ∧ evaluate source b = .error e) ∨
      ∃ f v marks, compile source = .ok f ∧ evaluate source b = .ok v ∧
        f.sequence = [.constant v marks] ∧ f.variableNames = [] ∧ ∀ b', f.replay b' = .ok v := by
  have hright : evaluate source b = (traced (constant b).right (Token.lex source)).result :=
    (result_traced _ _).symm
  have hleft : compile source = (traced (constant b).left (Token.lex source)).result >>= fun a =>
      .ok ⟨a.sequence, source⟩ := compile_eq source
  rw [hright, hleft]
  cases Comparison.lockstep_traced (fair_constant b (Token.lex source)) with
  | apart _ hpart hx _ =>
    -- a variable would have been resolved, and there is no marker to ask for it
    obtain ⟨name, rfl⟩ := exists_resolution_of_parting hpart
    exact absurd hx.mem (resolution_notMem_traced _ hmarker name)
  | together _ hresult =>
    generalize (traced (constant b).left (Token.lex source)).result = o,
      (traced (constant b).right (Token.lex source)).result = o' at hresult
    cases hresult with
    | @error e e' he =>
      subst he
      exact Or.inl ⟨e, rfl, rfl⟩
    | @ok a v hav =>
      obtain ⟨marks, rfl⟩ := hav
      exact Or.inr ⟨_, v, marks, rfl, rfl, rfl, rfl, fun b' => replay_constant v marks source b'⟩

/-! ## All texts -/

/-- A compilation fails only for a reason that every evaluation meets, unless it stops before; and
what does not mention variables is computed once and for all. -/
theorem compile_error_genuine (source : String) :
    ((∀ a c, ¬Merges source .sub a c) → ∀ e, compile source = .error e → ∀ b,
      evaluate source b = .error e ∨
        ∃ e', evaluate source b = .error e' ∧ StopsEarly source b e') ∧
    ((∀ t ∈ (Token.lex source).tokens, t.isMarker = false) → ∀ b,
      (∃ e, compile source = .error e ∧ evaluate source b = .error e) ∨
        ∃ f v marks, compile source = .ok f ∧ evaluate source b = .ok v ∧
          f.sequence = [.constant v marks] ∧ f.variableNames = [] ∧
            ∀ b', f.replay b' = .ok v) := by
  constructor
  · intro hcancel e h b
    exact evaluate_error_of_compile hcancel h b
  · intro hmarker b
    exact compile_of_no_marker hmarker b

end

/-- A quotient by zero behind a variable, and a product without one. -/
theorem compile_error_genuine_of_quotient :
    (compile "$x + 1 / 0" = .error (.divisionByZero (.binary .div)) ∧ ∀ b,
      evaluate "$x + 1 / 0" b = .error (.divisionByZero (.binary .div)) ∨
        ∃ e', evaluate "$x + 1 / 0" b = .error e' ∧ StopsEarly "$x + 1 / 0" b e') ∧
    ∀ b, (∃ e, compile "2 * 3" = .error e ∧ evaluate "2 * 3" b = .error e) ∨
      ∃ f v marks, compile "2 * 3" = .ok f ∧ evaluate "2 * 3" b = .ok v ∧
        f.sequence = [.constant v marks] ∧ f.variableNames = [] ∧ ∀ b', f.replay b' = .ok v := by
  have hmerges : ∀ a c, ¬Merges "$x + 1 / 0" .sub a c := not_merges (by decide +kernel)
  have hcompile : compile "$x + 1 / 0" = .error (.divisionByZero (.binary .div)) :=
    Except.error?_eq_some.1 (by decide +kernel)
  exact ⟨⟨hcompile, (compile_error_genuine "$x + 1 / 0").1 hmerges _ hcompile⟩,
    (compile_error_genuine "2 * 3").2 (by decide +kernel)⟩

end Formula

end Reckon

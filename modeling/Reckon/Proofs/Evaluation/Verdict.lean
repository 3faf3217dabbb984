import Reckon.Proofs.Evaluation.Blame
import Reckon.Proofs.Evaluation.Lockstep
import Reckon.Proofs.Formula.Session
import Reckon.Proofs.Operator.Refusal

/-!
# Verdict — errors that no operand decides

Some errors say that the words of a reading do not fit together: a word has no meaning where it
stands, a bracket has no partner, an operator has too few operands, or there is not just one operand
left.  Such a verdict does not depend on what the operands are, so it is the same under all bindings
and for a compilation, as far as a run gets.

* `Error.isVerdict` — the errors about the words;
* `Run` — what can be done with a reading: evaluating it under bindings, or compiling it;
* `Run.Stumbles` — a run fails at a step that another run has taken;
* `Run.verdict_common` — a verdict on one run is the verdict on every other run that does not
  stumble before.
-/

namespace Reckon

open Evaluation

/-- Whether an error says that the words of a reading do not fit together. -/
def Error.isVerdict : Error → Bool
  | .unsupportedToken .. | .lexical .. => true
  | .unmatchedBracket _ | .unexecutable _ | .insufficientOperands _ | .noResult _ => true
  | _ => false

/-- An operator that is executed passes no verdict. -/
theorem Refusal.isVerdict {op : Operator} {e : Error} (h : Refusal op e) :
    e.isVerdict = false := by
  cases h <;> rfl

/-! ## Runs -/

/-- What is done with a reading. -/
inductive Run where
  | direct (b : Bindings)
  | compilation
  deriving Repr

namespace Run

/-- What the operands of a run are. -/
def Carrier : Run → Type
  | .direct _ => Value
  | .compilation => Operand

section

variable [Capacity]

def semantics : (k : Run) → Semantics k.Carrier
  | .direct b => Semantics.direct .unknownVariable b
  | .compilation => Semantics.symbolic

/-- What a run comes to. -/
def outcome (k : Run) (r : Reading) : Except Error k.Carrier :=
  ofReading k.semantics r

/-- The run `k` ends with an error of one of its steps, in a place where the run `other` has taken
its step and gone on. -/
def Stumbles (k other : Run) (r : Reading) (e : Error) : Prop :=
  ∃ before y x v, (traced k.semantics r).steps = before ++ [y] ∧ k.semantics.Fails y e ∧
    (traced other.semantics r).steps[before.length]? = some x ∧ other.semantics.take x = .ok v

end

/-! ## Steps pass no verdict -/

theorem isVerdict_of_resolve {b : Bindings} {name : String} {e : Error}
    (h : b.resolve .unknownVariable name = .error e) : e.isVerdict = false := by
  unfold Bindings.resolve at h
  split at h
  · cases h
    rfl
  · split at h
    · cases h
      rfl
    · cases h
      rfl
    · cases h

theorem isVerdict_of_fails [Capacity] {k : Run} {s : Step k.Carrier} {e : Error}
    (h : k.semantics.Fails s e) : e.isVerdict = false := by
  cases k with
  | direct b =>
    cases h with
    | resolution hresolve =>
      exact isVerdict_of_resolve hresolve
    | binary hexecute =>
      exact (Binary.refusal hexecute).isVerdict
    | function hexecute =>
      exact (Function.refusal hexecute).isVerdict
  | compilation =>
    cases h with
    | @resolution name _ hresolve =>
      -- a compilation leaves every variable open, if it has a name
      rcases Semantics.cases_of_resolve_symbolic name with hmarker | ⟨-, herror⟩
      · exact absurd (hmarker.symm.trans hresolve) nofun
      · cases herror.symm.trans hresolve
        rfl
    | binary hdefer =>
      obtain ⟨v, w, -, -, hexecute⟩ := Deferral.exists_of_binary_error hdefer
      exact (Binary.refusal hexecute).isVerdict
    | function hdefer =>
      obtain ⟨v, hexecute⟩ := Deferral.exists_of_function_error hdefer
      exact (Function.refusal hexecute).isVerdict

end Run

namespace Comparison

variable {α β : Type} {c : Comparison α β} {s : Step α} {t : Step β} {e : Error}

theorem Parting.fails_left (h : c.Parting s t) (he : c.left.take s = .error e) :
    c.left.Fails s e := by
  cases h with
  | resolution name _ =>
    exact .resolution he
  | binary op _ _ _ =>
    exact .binary he
  | function f _ _ =>
    exact .function he

theorem Parting.fails_right (h : c.Parting s t) (he : c.right.take t = .error e) :
    c.right.Fails t e := by
  cases h with
  | resolution name _ =>
    exact .resolution he
  | binary op _ _ _ =>
    exact .binary he
  | function f _ _ =>
    exact .function he

theorem Parting.not_agree (h : c.Parting s t) :
    ¬c.Agree c.SameOperand (c.left.take s) (c.right.take t) := by
  cases h with
  | resolution name hdiffer =>
    exact hdiffer
  | binary op _ _ hdiffer =>
    exact hdiffer
  | function f _ hdiffer =>
    exact hdiffer

end Comparison

namespace Run

variable {r : Reading} {k other : Run} {e : Error}

/-! ## Two runs -/

section

variable [Capacity]

/-- Two runs of which only the words are compared: every operand is as good as any other. -/
def wordsOf (k other : Run) : Comparison k.Carrier other.Carrier where
  left := k.semantics
  right := other.semantics
  SameOperand _ _ := True
  SameError := (· = ·)

theorem fair_wordsOf (k other : Run) (r : Reading) : (wordsOf k other).Fair r where
  number _ := trivial
  text _ _ _ := trivial
  error _ _ := rfl
  failure _ _ := rfl

/-- Where two runs part, one of them fails; if the first one goes on, it is the other. -/
theorem exists_fails_of_parting {s : Step k.Carrier} {t : Step other.Carrier}
    (h : (wordsOf k other).Parting s t) {v : k.Carrier} (hv : k.semantics.take s = .ok v) :
    ∃ e, other.semantics.take t = .error e ∧ other.semantics.Fails t e := by
  cases ht : other.semantics.take t with
  | error e =>
    exact ⟨e, rfl, h.fails_right ht⟩
  | ok w =>
    -- two operands are never told apart
    refine absurd ?_ h.not_agree
    change (wordsOf k other).Agree _ (k.semantics.take s) (other.semantics.take t)
    rw [hv, ht]
    exact .ok trivial

/-- A verdict on a reading does not depend on the run: another run of the same reading comes to the
same error, unless it has failed before at a step that the first run has taken. -/
theorem verdict_common (r : Reading) (k other : Run) {e : Error} (hverdict : e.isVerdict = true)
    (h : k.outcome r = .error e) :
    other.outcome r = .error e ∨
      ∃ e', other.outcome r = .error e' ∧ other.Stumbles k r e' := by
  have hleft : (traced (wordsOf k other).left r).result = .error e := (result_traced _ _).trans h
  have hright : other.outcome r = (traced (wordsOf k other).right r).result :=
    (result_traced _ _).symm
  rw [hright]
  cases Comparison.lockstep_traced (fair_wordsOf k other r) with
  | together _ hresult =>
    -- no step has parted the two, so they end with the same error
    rw [hleft] at hresult
    generalize (traced (wordsOf k other).right r).result = o at hresult
    cases hresult with
    | error he =>
      exact Or.inl (congrArg _ he.symm)
  | @apart before before' s t hbefore hpart hs ht =>
    right
    cases hv : k.semantics.take s with
    | error e' =>
      -- the first run would have ended with the error of a step, which is no verdict
      have hend : (traced (wordsOf k other).left r).result = .error e' := (hs.result hv).2
      rw [hleft] at hend
      cases hend
      have hnot := isVerdict_of_fails (hpart.fails_left hv)
      rw [hverdict] at hnot
      cases hnot
    | ok v =>
      obtain ⟨e', he', hfails⟩ := exists_fails_of_parting hpart hv
      obtain ⟨hsteps, hend⟩ := ht.result he'
      refine ⟨e', hend, before', t, s, v, hsteps, hfails, ?_, hv⟩
      rw [← hbefore.length_eq]
      exact hs.getElem?

end

/-- A bracket that was never opened: a compilation gets to it, and so does an evaluation, unless the
variable has no value. -/
theorem verdict_common_of_unopened :
    (Error.unmatchedBracket .rightBracket).isVerdict = true ∧
      compilation.outcome (Token.lex "2 * $x)") = .error (.unmatchedBracket .rightBracket) ∧
      ((direct []).outcome (Token.lex "2 * $x)") = .error (.unmatchedBracket .rightBracket) ∨
        ∃ e', (direct []).outcome (Token.lex "2 * $x)") = .error e' ∧
          (direct []).Stumbles compilation (Token.lex "2 * $x)") e') := by
  have hcompile :
      compilation.outcome (Token.lex "2 * $x)") = .error (.unmatchedBracket .rightBracket) :=
    Except.error?_eq_some.1 (by decide +kernel)
  exact ⟨rfl, hcompile, verdict_common _ compilation (direct []) rfl hcompile⟩

end Run

end Reckon

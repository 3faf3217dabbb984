import Reckon.Proofs.Evaluation.Lockstep
import Reckon.Proofs.Operator.Refusal

/-!
# Missing — variables that are not bound

An evaluation calls a variable without a value unknown, and a replay says that it has not been
provided.  Nothing else depends on which of the two it is: no other error mentions it, and the
evaluations take the same steps.

* `Error.asUnprovided` — the error as a replay tells it;
* `evaluate_unprovided` — the outcome of an evaluation as a replay tells it.
-/

namespace Reckon

open Evaluation

/-! ## Errors -/

/-- The error as a replay tells it: a variable is not unknown but has not been provided. -/
def Error.asUnprovided : Error → Error
  | .unknownVariable name => .unprovidedVariable name
  | e => e

theorem Error.asUnprovided_of_ne {e : Error} (h : ∀ name, e ≠ .unknownVariable name) :
    e.asUnprovided = e := by
  cases e with
  | unknownVariable name =>
    exact absurd rfl (h name)
  | _ =>
    rfl

theorem Refusal.asUnprovided {op : Operator} {e : Error} (h : Refusal op e) :
    e.asUnprovided = e := by
  cases h <;> rfl

namespace Token

theorem lexical_of_firstToken {position : Nat} {c : Char} {rest : List Char} {e : Error}
    (h : firstToken position c rest = .error e) : ∃ fault place, e = .lexical fault place := by
  unfold firstToken at h
  dsimp only at h
  split at h
  · cases h
  · split at h
    · split at h
      · cases h
      · cases h
        exact ⟨_, _, rfl⟩
      · cases h
        exact ⟨_, _, rfl⟩
    · split at h
      · cases h
      · cases h

/-- The only thing that is wrong with a source text before it is evaluated is a text without end. -/
theorem lexical_of_lexFrom {position : Nat} {cs : List Char} {e : Error}
    (h : (lexFrom position cs).failure = some e) : ∃ fault place, e = .lexical fault place := by
  fun_induction lexFrom position cs with
  | case1 position =>
    cases h
  | case2 position c rest hblank ih =>
    exact ih h
  | case3 position c rest hblank e' hfirst =>
    cases h
    exact lexical_of_firstToken hfirst
  | case4 position c rest hblank token width hfirst ih =>
    exact ih h

end Token

/-! ## Evaluations -/

variable [Capacity]

/-- Two evaluations with the same bindings that tell missing variables differently. -/
def unprovided (b : Bindings) : Comparison Value Value where
  left := Semantics.direct .unknownVariable b
  right := Semantics.direct .unprovidedVariable b
  SameOperand := (· = ·)
  SameError e e' := e' = e.asUnprovided

theorem fair_unprovided (b : Bindings) (source : String) :
    (unprovided b).Fair (Token.lex source) where
  number _ := rfl
  text _ _ _ := rfl
  error _ h := (Error.asUnprovided_of_ne h).symm
  failure e h := by
    obtain ⟨fault, place, rfl⟩ := Token.lexical_of_lexFrom h
    rfl

variable {b : Bindings}

theorem agree_unprovided {o : Except Error Value}
    (h : ∀ e, o = .error e → e.asUnprovided = e) :
    (unprovided b).Agree (unprovided b).SameOperand o o := by
  cases o with
  | error e =>
    exact .error (h e rfl).symm
  | ok v =>
    exact .ok rfl

theorem agree_resolve (b : Bindings) (name : String) :
    (unprovided b).Agree (unprovided b).SameOperand (b.resolve .unknownVariable name)
      (b.resolve .unprovidedVariable name) := by
  unfold Bindings.resolve
  cases b.find? name with
  | none =>
    exact .error rfl
  | some supplied =>
    dsimp only
    cases supplied.coerce with
    | error cause =>
      exact .error rfl
    | ok coerced =>
      cases coerced with
      | value v =>
        exact .ok rfl
      | unsupported kind =>
        exact .error rfl

theorem not_parting_unprovided {s t : Step Value} : ¬(unprovided b).Parting s t := by
  intro hpart
  cases hpart with
  | resolution name hdiffer =>
    -- the one place where the two can tell an error differently
    exact hdiffer (agree_resolve b name)
  | binary op hx hy hdiffer =>
    obtain rfl := hx
    obtain rfl := hy
    exact hdiffer (agree_unprovided fun e he => (Binary.refusal he).asUnprovided)
  | function f hx hdiffer =>
    obtain rfl := hx
    exact hdiffer (agree_unprovided fun e he => (Function.refusal he).asUnprovided)

/-- An evaluation under bindings, told as a replay tells it. -/
theorem evaluate_unprovided (source : String) (b : Bindings) :
    ofReading (Semantics.direct .unprovidedVariable b) (Token.lex source) =
      (evaluate source b).mapError Error.asUnprovided := by
  have hleft : evaluate source b = (traced (unprovided b).left (Token.lex source)).result :=
    (result_traced _ _).symm
  have hright : ofReading (Semantics.direct .unprovidedVariable b) (Token.lex source) =
      (traced (unprovided b).right (Token.lex source)).result := (result_traced _ _).symm
  rw [hleft, hright]
  cases Comparison.lockstep_traced (fair_unprovided b source) with
  | apart _ hpart _ _ =>
    exact absurd hpart not_parting_unprovided
  | together _ hresult =>
    generalize (traced (unprovided b).left (Token.lex source)).result = o,
      (traced (unprovided b).right (Token.lex source)).result = o' at hresult
    cases hresult with
    | ok hv =>
      exact congrArg Except.ok hv.symm
    | error he =>
      exact congrArg Except.error he

end Reckon

import Reckon.Proofs.Double.Order
import Reckon.Proofs.Formula.Denotation
import Reckon.Proofs.Formula.Sameness

/-!
# Rewriting — deferred steps come to what they stand for

When a step of a compilation is deferred, the operand that it leaves behind stands for the outcome
of the operator on what its operands stand for.  For most steps this is how sequences are put
together. The others replace the operation by a simpler one, and each has its reason in the
arithmetic:

* `execute_double`, `execute_difference` — the sum and the difference of a value and itself;
* `execute_one`, `one_execute` — products with one;
* `Deferral.outcome_binary`, `Deferral.outcome_function` — all steps.

Texts have to be short enough for a product with a number not to be refused where the sum is not.
-/

namespace Reckon

open Machine Operand Formula

/-- Texts of which two fit into the longest one that there may be. -/
def IsShort (s : CodeText) : Prop :=
  s.length < 2 ^ 62

theorem holdsOfShort_isShort [Capacity] : HoldsOfShort IsShort := by
  intro s hs
  have hlimit := Capacity.largestText_lt
  exact Nat.lt_of_le_of_lt hs hlimit

/-! ## Values -/

theorem repeatText_two (s : CodeText) : repeatText s 2 = s ++ s := by
  apply CodeText.ext
  rw [points_repeatText, CodeText.points_append]
  simp

section

variable [Capacity]

/-- The sum of a value with itself is its product with two. -/
theorem execute_double {v : Value} (h : v.IsScalar IsShort) :
    Binary.mul.execute v (.number 2) = Binary.add.execute v v := by
  cases h with
  | number x =>
    exact congrArg (fun y => Except.ok (Value.number y)) (Double.add_self x).symm
  | @text s hs =>
    -- the text is short enough for the product to be refused for memory only, as the sum is
    have htwo : Double.whole? 2 = some 2 := by decide +kernel
    have hcount : ¬(Limit.largestIndex : Int) < 2 := by decide
    have hlength : ¬(Limit.largestIndex : Int) < s.length * 2 := by
      have hlimit : (Limit.largestIndex : Int) = 2 ^ 63 - 1 := by decide
      have hshort : s.length < 2 ^ 62 := hs
      omega
    have hone : ¬(2 : Int) = 1 := by decide
    have htwice : s.length + s.length = s.length * 2 := by omega
    change Binary.executeRepeat s 2 = requireMemory (s.length + s.length) >>= fun _ =>
      .ok (.text (s ++ s))
    rw [htwice, ← repeatText_two]
    simp only [Binary.executeRepeat, htwo, if_neg hcount, if_neg hlength, if_neg hone]
    rfl

/-- A finite number minus itself is zero. -/
theorem execute_difference {x : Float} (h : x.isFinite = true) :
    Binary.sub.execute (.number x) (.number x) = .ok (.number 0) :=
  congrArg (fun y => Except.ok (Value.number y)) (Double.sub_self h)

theorem executeRepeat_one {s : CodeText} (h : IsShort s) :
    Binary.executeRepeat s 1 = .ok (.text s) := by
  have hwhole : Double.whole? 1 = some 1 := by decide +kernel
  have hcount : ¬(Limit.largestIndex : Int) < 1 := by decide
  have hlength : ¬(Limit.largestIndex : Int) < s.length * 1 := by
    have hlimit : (Limit.largestIndex : Int) = 2 ^ 63 - 1 := by decide
    have hshort : s.length < 2 ^ 62 := h
    omega
  simp only [Binary.executeRepeat, hwhole, if_neg hcount, if_neg hlength, if_true]

/-- A product with one is the left factor. -/
theorem execute_one {v : Value} (h : v.IsScalar IsShort) :
    Binary.mul.execute v (.number 1) = .ok v := by
  cases h with
  | number x =>
    exact congrArg (fun y => Except.ok (Value.number y)) (Double.mul_one x)
  | text hs =>
    exact executeRepeat_one hs

/-- A product with one is the right factor. -/
theorem one_execute {v : Value} (h : v.IsScalar IsShort) :
    Binary.mul.execute (.number 1) v = .ok v := by
  cases h with
  | number x =>
    exact congrArg (fun y => Except.ok (Value.number y)) (Double.one_mul x)
  | text hs =>
    exact executeRepeat_one hs

end

/-! ## Steps -/

namespace Deferral

variable {sem : Semantics Value} {a c z : Operand}

theorem outcome_of_isOne (h : c.isOne = true) : c.outcome sem = .ok (.number 1) := by
  unfold isOne at h
  split at h
  · rename_i x hx
    rw [respects_outcome sem c _ hx, Double.eq_one_of_beq h]
  · cases h

theorem isScalar_of_isScalarSymbol (ha : a.Formed (soundShape sem IsShort))
    (h : a.isScalarSymbol = true) : a.IsScalar (soundShape sem IsShort) := by
  cases ha with
  | scalar ha =>
    exact ha
  | list marks _ =>
    cases h
  | group _ _ _ =>
    cases h

theorem isScalar_of_sameSymbol (ha : a.Formed (soundShape sem IsShort))
    (h : a.sameSymbol c = true) : a.IsScalar (soundShape sem IsShort) := by
  refine isScalar_of_isScalarSymbol ha ?_
  rcases sameSymbol_cases h with ⟨name, rfl, rfl⟩ | ⟨es, es', origin, p, p', rfl, rfl, _⟩
  · rfl
  · rfl

variable [Capacity]

/-- Joining operands to a group. -/
theorem outcome_makeGroup (hsem : sem.Suits IsShort) (ha : a.Formed (soundShape sem IsShort))
    (hc : c.Formed (soundShape sem IsShort)) (hnone : a.value? = none ∨ c.value? = none) :
    (makeGroup a c).outcome sem =
      a.outcome sem >>= fun v => c.outcome sem >>= fun w => Binary.comma.execute v w := by
  cases ha.makeGroup hc hnone with
  | scalar h =>
    cases h
  | group hlength _ hscalar =>
    have hgroup := Formed.outcome_group hsem hlength hscalar
    have hmembers : (a.groupMembers ++ c.groupMembers).mapM (Operand.outcome sem) =
        a.outcome sem >>= fun v => c.outcome sem >>= fun w => .ok (v.members ++ w.members) := by
      rw [List.mapM_append, ha.mapM_groupMembers hsem, hc.mapM_groupMembers hsem]
      simp only [bind_assoc, Except.bind_ok]
      rfl
    rw [hmembers, bind_assoc] at hgroup
    simp only [bind_assoc, Except.bind_ok] at hgroup
    simp only [Binary.execute_comma]
    exact hgroup

/-- A sum or a difference of two operands that stand for the same. -/
theorem outcome_sum_same (hsem : sem.Suits IsShort) (ha : a.Formed (soundShape sem IsShort))
    (hsame : a.sameSymbol c = true) (heq : a.outcome sem = c.outcome sem) :
    (combine .mul a (value (.number 2))).outcome sem =
      a.outcome sem >>= fun v => c.outcome sem >>= fun w => Binary.add.execute v w := by
  rw [outcome_combine hsem .mul ha (Shape.formed_number 2), ← heq]
  cases hv : a.outcome sem with
  | error e =>
    rfl
  | ok v =>
    exact execute_double ((isScalar_of_sameSymbol ha hsame).outcome hsem hv)

/-- A deferred operator between two operands. -/
theorem outcome_deferBinary (hsem : sem.Suits IsShort) {op : Binary}
    (ha : a.Formed (soundShape sem IsShort)) (hc : c.Formed (soundShape sem IsShort))
    (hnone : a.value? = none ∨ c.value? = none)
    (hsame : op = .add ∨ op = .sub → a.sameSymbol c = true → a.outcome sem = c.outcome sem)
    (hfinite : op = .sub → a.sameSymbol c = true →
      ∃ x, a.outcome sem = .ok (.number x) ∧ x.isFinite = true) :
    (deferBinary op a c).outcome sem =
      a.outcome sem >>= fun v => c.outcome sem >>= fun w => op.execute v w := by
  cases op with
  | comma =>
    exact outcome_makeGroup hsem ha hc hnone
  | add =>
    simp only [deferBinary]
    split
    · rename_i h
      exact outcome_sum_same hsem ha h (hsame (Or.inl rfl) h)
    · exact outcome_combine hsem .add ha hc
  | sub =>
    simp only [deferBinary]
    split
    · rename_i h
      -- an infinite number minus itself would not be zero
      obtain ⟨x, hx, hxfinite⟩ := hfinite rfl h
      rw [← hsame (Or.inr rfl) h, hx]
      exact (execute_difference hxfinite).symm
    · exact outcome_combine hsem .sub ha hc
  | mul =>
    simp only [deferBinary]
    split
    · rename_i h
      rw [Bool.and_eq_true] at h
      rw [outcome_of_isOne h.2]
      cases hv : a.outcome sem with
      | error e =>
        rfl
      | ok v =>
        exact (execute_one ((isScalar_of_isScalarSymbol ha h.1).outcome hsem hv)).symm
    · split
      · rename_i h
        rw [Bool.and_eq_true] at h
        rw [outcome_of_isOne h.2]
        cases hv : c.outcome sem with
        | error e =>
          rfl
        | ok v =>
          exact (one_execute ((isScalar_of_isScalarSymbol hc h.1).outcome hsem hv)).symm
      · exact outcome_combine hsem .mul ha hc
  | div =>
    exact outcome_combine hsem .div ha hc
  | rem =>
    exact outcome_combine hsem .rem ha hc

/-- A step on two operands comes to the operator on what they come to. -/
theorem outcome_binary (hsem : sem.Suits IsShort) {op : Binary}
    (ha : a.Formed (soundShape sem IsShort)) (hc : c.Formed (soundShape sem IsShort))
    (hsame : op = .add ∨ op = .sub → a.sameSymbol c = true → a.outcome sem = c.outcome sem)
    (hfinite : op = .sub → a.sameSymbol c = true →
      ∃ x, a.outcome sem = .ok (.number x) ∧ x.isFinite = true)
    (hz : binary op a c = .ok z) :
    z.outcome sem = a.outcome sem >>= fun v => c.outcome sem >>= fun w => op.execute v w := by
  -- values are computed with at once, so the operands come to them in either case
  by_cases hnone : a.value? = none ∨ c.value? = none
  · rw [binary_of_symbolic hnone] at hz
    obtain rfl := Except.ok.inj hz
    exact outcome_deferBinary hsem ha hc hnone hsame hfinite
  · obtain ⟨v, hv⟩ := Option.ne_none_iff_exists'.1 fun h => hnone (Or.inl h)
    obtain ⟨w, hw⟩ := Option.ne_none_iff_exists'.1 fun h => hnone (Or.inr h)
    rw [binary_of_values hv hw] at hz
    obtain ⟨u, hu, hz⟩ := Except.exists_of_bind_eq_ok hz
    obtain rfl := Except.ok.inj hz
    rw [respects_outcome sem a v hv, respects_outcome sem c w hw, Except.bind_ok, Except.bind_ok, hu]
    rfl

/-- A step on one operand comes to the function on what it comes to. -/
theorem outcome_function (hsem : sem.Suits IsShort) {f : Function}
    (ha : a.Formed (soundShape sem IsShort)) (hz : function f a = .ok z) :
    z.outcome sem = a.outcome sem >>= fun v => f.execute v := by
  cases hvalue : a.value? with
  | some v =>
    rw [function_of_value hvalue] at hz
    obtain ⟨u, hu, hz⟩ := Except.exists_of_bind_eq_ok hz
    obtain rfl := Except.ok.inj hz
    rw [respects_outcome sem a v hvalue, Except.bind_ok, hu]
    rfl
  | none =>
    rw [function_of_symbolic hvalue] at hz
    cases ha with
    | scalar ha =>
      rw [ha.deferCall] at hz
      obtain rfl := Except.ok.inj hz
      rw [← ha.outcome_sequence, ← function_of_suits hsem]
      exact ha.reads.1.outcome_call f
    | list marks hlist =>
      cases hvalue
    | @group members hlength hsymbolic hscalar =>
      obtain ⟨members', hcall, hfolds, _⟩ := deferCall_group f members
      have hlength' := hfolds.length hlength hsymbolic
      have hscalar' := Shape.isScalar_folds hfolds hscalar
      rw [hcall] at hz
      obtain rfl := Except.ok.inj hz
      calc Formula.outcome sem (callSequence (.function f) (joinMembers members'))
          = Formula.outcome sem (joinMembers members') >>= fun v => f.execute v := by
            rw [(reads_joinMembers hsem hlength' hscalar').outcome_call f, function_of_suits hsem]
        _ = members'.mapM (Operand.outcome sem) >>= fun vs => f.execute (.list vs) := by
            rw [outcome_joinMembers hsem hlength' hscalar', bind_assoc]
            rfl
        _ = members.mapM (Operand.outcome sem) >>= fun vs => f.execute (.list vs) :=
            hfolds.execute _ (respects_outcome sem)
        _ = (Operand.group members).outcome sem >>= fun v => f.execute v := by
            rw [Formed.outcome_group hsem hlength hscalar, bind_assoc]
            rfl

end Deferral

end Reckon

import Reckon.Proofs.Formula.Domain
import Reckon.Proofs.Formula.Signs

/-!
# Equality — replays of formulas that agree

Formulas agree if they have the same elements, where constants need only be equal as numbers, so the
signs of zeros may differ.  Their replays go side by side and come to the same, unless they meet a
power that tells the two zeros apart:

* `Formula.ReachesOddPoles` — such a power, behind steps that are the same up to the signs of zeros;
* `Formula.sameOutcome_of_agrees` — the same error or values that agree, or such a power;
* `Formula.agreeing_powers` — two formulas that agree, and that come to opposite infinities.
-/

namespace Reckon

open Machine

/-! ## Steps -/

/-- Values that are the same up to the signs of zeros. -/
def Value.SameUnsigned (v w : Value) : Prop :=
  v.unsigned = w.unsigned

theorem related_of_unsigned {es es' : List Element}
    (h : es.map Element.unsigned = es'.map Element.unsigned) :
    List.Forall₂ (Element.Related Value.SameUnsigned) es es' := by
  induction es generalizing es' with
  | nil =>
    obtain rfl := List.map_eq_nil_iff.1 h.symm
    exact .nil
  | cons e es ih =>
    obtain ⟨e', es', rfl, he, hes⟩ := List.map_eq_cons_iff.1 h.symm
    refine .cons ?_ (ih hes.symm)
    cases e with
    | operator op =>
      cases e' <;> cases he
      exact .operator op
    | marker name =>
      cases e' <;> cases he
      exact .marker name
    | constant v ms =>
      cases e' with
      | constant w ns =>
        simp only [Element.unsigned, Element.constant.injEq, and_true] at he
        exact .constant ms ns he.symm
      | operator op =>
        cases he
      | marker name =>
        cases he

namespace Comparison

variable {b : Bindings}

theorem agree_of_map_unsigned [Capacity] {o o' : Except Error Value}
    (h : o.map Value.unsigned = o'.map Value.unsigned) :
    (replays b Value.SameUnsigned).Agree Value.SameUnsigned o o' := by
  rcases Except.cases_of_map_eq h with ⟨e, rfl, rfl⟩ | ⟨v, w, rfl, rfl, hvw⟩
  · exact .error rfl
  · exact .ok hvw

/-- Replays that are the same up to the signs of zeros part at a power with odd poles only. -/
theorem Parting.oddPoles [Capacity] {s s' : Step Value}
    (h : (replays b Value.SameUnsigned).Parting s s') :
    ∃ v w, s = .reduction (.function .pow) [v] ∧ s' = .reduction (.function .pow) [w] ∧
      OddPoles v w := by
  cases h with
  | resolution name hdiffer =>
    exact absurd (agree_of_map_unsigned rfl) hdiffer
  | binary op hv hw hdiffer =>
    exact absurd (agree_of_map_unsigned (Binary.execute_unsigned op hv hw)) hdiffer
  | @function f v w hv hdiffer =>
    rcases Function.execute_unsigned f hv with hsame | ⟨rfl, hpoles⟩
    · exact absurd (agree_of_map_unsigned hsame) hdiffer
    · exact ⟨v, w, rfl, rfl, hpoles⟩

end Comparison

theorem neg_neg_infinity : -(-Double.infinity) = Double.infinity := by
  decide +kernel

/-- Powers with odd poles are the two infinities. -/
theorem OddPoles.execute {v w : Value} (h : OddPoles v w) :
    ∃ x, (x = Double.infinity ∨ x = -Double.infinity) ∧
      Function.pow.execute v = .ok (.number x) ∧
        Function.pow.execute w = .ok (.number (-x)) := by
  cases h with
  | @mk x x' y hpoles =>
    have hexecute : ∀ z : Float, Function.pow.execute (.list [.number z, .number y]) =
        .ok (.number (Double.power z y)) := fun z => rfl
    rw [hexecute, hexecute]
    rcases Double.power_of_oppositePoles hpoles with ⟨hx, hx'⟩ | ⟨hx, hx'⟩
    · refine ⟨-Double.infinity, Or.inr rfl, by rw [hx], ?_⟩
      rw [hx', neg_neg_infinity]
    · exact ⟨Double.infinity, Or.inl rfl, by rw [hx], by rw [hx']⟩

/-! ## Formulas -/

namespace Formula

/-- The same error, or values that agree. -/
inductive SameOutcome : Except Error Value → Except Error Value → Prop where
  | value {v w : Value} : v.agrees w = true → SameOutcome (.ok v) (.ok w)
  | error (e : Error) : SameOutcome (.error e) (.error e)

section

variable [Capacity]

/-- Two replays take the same steps, up to the signs of zeros, until both call `pow`: one with zero
and the other one with negative zero as its base, and with the same exponent, which is negative and
odd.  So one of the powers is infinity and the other one is negative infinity. -/
def ReachesOddPoles (f g : Formula) (b : Bindings) : Prop :=
  ∃ before before' v w,
    List.Forall₂ (Comparison.replays b Value.SameUnsigned).SameStep before before' ∧
      ((Interpretation.direct b).replay f.sequence).Reaches (.direct .unprovidedVariable b) before
        (.reduction (.function .pow) [v]) ∧
      ((Interpretation.direct b).replay g.sequence).Reaches (.direct .unprovidedVariable b) before'
        (.reduction (.function .pow) [w]) ∧
      OddPoles v w ∧
      ∃ x, (x = Double.infinity ∨ x = -Double.infinity) ∧
        Function.pow.execute v = .ok (.number x) ∧ Function.pow.execute w = .ok (.number (-x))

variable {source source' : String} {f g : Formula}

theorem plain_of_compile (h : compile source = .ok f) : ∀ e ∈ f.sequence, e.IsPlain := by
  rintro e he v marks rfl
  exact (isCompiled_of_compile h).constants he

/-- Formulas that agree come to the same with all bindings, the signs of zeros apart, unless their
replays meet a power that tells the two zeros apart. -/
theorem sameOutcome_of_agrees (hf : compile source = .ok f) (hg : compile source' = .ok g)
    (hagree : f.agrees g = true) (b : Bindings) :
    SameOutcome (f.replay b) (g.replay b) ∨ ReachesOddPoles f g b := by
  have hunsigned : f.sequence.map Element.unsigned = g.sequence.map Element.unsigned :=
    Element.unsigned_of_sequencesAgree (plain_of_compile hf) (plain_of_compile hg) hagree
  rw [replay_eq_result, replay_eq_result]
  cases Comparison.lockstep_replay (b := b) (related_of_unsigned hunsigned) with
  | together _ hresult =>
    refine Or.inl ?_
    generalize ((Interpretation.direct b).replay f.sequence).result = o at hresult
    generalize ((Interpretation.direct b).replay g.sequence).result = o' at hresult
    cases hresult with
    | @ok v w hvw =>
      exact .value (Value.agrees_of_unsigned v w hvw)
    | @error e e' he =>
      obtain rfl : e = e' := he
      exact .error e
  | apart hbefore hpart hf hg =>
    obtain ⟨v, w, rfl, rfl, hpoles⟩ := hpart.oddPoles
    exact Or.inr ⟨_, _, v, w, hbefore, hf, hg, hpoles, hpoles.execute⟩

end

/-- Sums with the two zeros. -/
theorem sameOutcome_of_agrees_sums :
    ∃ f g, compile "$x+0" = .ok f ∧ compile "$x+(-0)" = .ok g ∧ f.agrees g = true ∧
      (SameOutcome (f.replay [("x", .number 5)]) (g.replay [("x", .number 5)]) ∨
        ReachesOddPoles f g [("x", .number 5)]) := by
  have hf : compile "$x+0" =
      .ok ⟨[.marker "x", .operator (.binary .add), .constant (.number 0) []], "$x+0"⟩ :=
    Except.toOption_eq_some.1 (by decide +kernel)
  have hg : compile "$x+(-0)" =
      .ok ⟨[.marker "x", .operator (.binary .add), .constant (.number (-0)) []], "$x+(-0)"⟩ :=
    Except.toOption_eq_some.1 (by decide +kernel)
  exact ⟨_, _, hf, hg, by decide +kernel, sameOutcome_of_agrees hf hg (by decide +kernel) _⟩

/-- Two powers that agree, and that come to opposite infinities. -/
theorem agreeing_powers :
    ∃ f g, compile "pow(0,$x)" = .ok f ∧ compile "pow(-0,$x)" = .ok g ∧ f.agrees g = true ∧
      f.replay [("x", .number (-1))] = .ok (.number Double.infinity) ∧
      g.replay [("x", .number (-1))] = .ok (.number (-Double.infinity)) ∧
      (Value.number Double.infinity).agrees (.number (-Double.infinity)) = false := by
  have hf : compile "pow(0,$x)" =
      .ok ⟨[.operator (.function .pow), .leftBracket, .constant (.number 0) [], .comma,
        .marker "x", .rightBracket], "pow(0,$x)"⟩ :=
    Except.toOption_eq_some.1 (by decide +kernel)
  have hg : compile "pow(-0,$x)" =
      .ok ⟨[.operator (.function .pow), .leftBracket, .constant (.number (-0)) [], .comma,
        .marker "x", .rightBracket], "pow(-0,$x)"⟩ :=
    Except.toOption_eq_some.1 (by decide +kernel)
  exact ⟨_, _, hf, hg, by decide +kernel, Except.toOption_eq_some.1 (by decide +kernel),
    Except.toOption_eq_some.1 (by decide +kernel), by decide +kernel⟩

end Formula
end Reckon

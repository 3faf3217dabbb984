import Reckon.Proofs.Formula.Fixpoint
import Reckon.Proofs.Formula.Session
import Reckon.Proofs.Operator.Plain

/-!
# Shape — the operands that a compilation brings about

A compilation starts from numbers, texts and markers, and what it makes of them has a certain shape:
constants are plain, groups have at least two members and one of them is symbolic, and no member of
a group is a list.  What is required of texts, of the names of variables and of deferred operations
is left open:

* `Shape` — the requirements, and `Shape.Closed` — that deferring an operator meets them;
* `Operand.Formed` — the operands of a shape, and `Operand.Formed.mono` — a shape may ask for less;
* `Shape.Closed.binary`, `Shape.Closed.function` — a compilation does not leave them.
-/

namespace Reckon

open Operand

/-- What is required of texts, of the names of variables, and of deferred operations with their
sequence, their origin and their precedence. -/
structure Shape where
  Text : CodeText → Prop
  Marker : String → Prop
  Deferred : List Element → Option String → Int → Prop

/-- Whatever meets the first requirements meets the second ones, too. -/
structure Shape.Refines (σ τ : Shape) : Prop where
  text : ∀ {s}, σ.Text s → τ.Text s
  marker : ∀ {name}, σ.Marker name → τ.Marker name
  deferred : ∀ {es origin p}, σ.Deferred es origin p → τ.Deferred es origin p

namespace Operand

/-- Operands that stand for a single number or text. -/
inductive IsScalar (σ : Shape) : Operand → Prop where
  | constant {v : Value} {marks : List (Option Nat)} : v.IsScalar σ.Text →
    marks.length ≤ v.undefinedCount → IsScalar σ (.atom (.constant v marks))
  | marker {name : String} : σ.Marker name → IsScalar σ (.marker name)
  | deferred {es : List Element} {origin : Option String} {p : Int} : σ.Deferred es origin p →
    IsScalar σ (.deferred es origin p)

/-- Scalars and lists of at least two of them; a list without symbolic members is a constant. -/
inductive Formed (σ : Shape) : Operand → Prop where
  | scalar {a : Operand} : a.IsScalar σ → Formed σ a
  | list {vs : List Value} (marks : List (Option Nat)) : (Value.list vs).IsPlain σ.Text →
    Formed σ (.atom (.constant (.list vs) marks))
  | group {members : List Operand} : 2 ≤ members.length → (∃ m ∈ members, m.isSymbolic = true) →
    (∀ m ∈ members, m.IsScalar σ) → Formed σ (.group members)

variable {σ τ : Shape}

theorem IsScalar.mono (hrefines : σ.Refines τ) {a : Operand} (h : IsScalar σ a) : IsScalar τ a := by
  cases h with
  | constant h hmarks =>
    exact .constant (h.mono hrefines.text) hmarks
  | marker h =>
    exact .marker (hrefines.marker h)
  | deferred h =>
    exact .deferred (hrefines.deferred h)

theorem Formed.mono (hrefines : σ.Refines τ) {a : Operand} (h : Formed σ a) : Formed τ a := by
  cases h with
  | scalar h =>
    exact .scalar (h.mono hrefines)
  | list marks h =>
    exact .list marks (h.mono hrefines.text)
  | group hlength hsymbolic h =>
    exact .group hlength hsymbolic fun m hm => (h m hm).mono hrefines

theorem isScalar_value {v : Value} (h : v.IsScalar σ.Text) : IsScalar σ (value v) :=
  .constant h (Nat.zero_le _)

theorem isScalar_marked {v : Value} (h : v.IsScalar σ.Text) (marks : List (Option Nat)) :
    IsScalar σ (marked v marks) :=
  .constant h (List.length_take_le _ _)

theorem formed_marked {v : Value} (h : v.IsPlain σ.Text) (marks : List (Option Nat)) :
    Formed σ (marked v marks) := by
  cases h with
  | scalar h =>
    exact .scalar (isScalar_marked h marks)
  | list hlength h =>
    exact .list _ (.list hlength h)

theorem Formed.value? {a : Operand} (h : Formed σ a) {v : Value} (hv : a.value? = some v) :
    v.IsPlain σ.Text := by
  cases h with
  | scalar h =>
    cases h with
    | constant h _ =>
      cases hv
      exact .scalar h
    | marker _ =>
      cases hv
    | deferred _ =>
      cases hv
  | list marks h =>
    cases hv
    exact h
  | group _ _ _ =>
    cases hv

theorem isScalar_ofMembers {vs : List Value} (h : ∀ v ∈ vs, v.IsScalar σ.Text)
    (marks : List (Option Nat)) : ∀ m ∈ ofMembers vs marks, m.IsScalar σ := by
  induction vs generalizing marks with
  | nil =>
    simp [ofMembers]
  | cons v vs ih =>
    intro m hm
    rcases List.mem_cons.1 hm with rfl | hm
    · have hv := h v (by simp)
      cases hv with
      | number x =>
        exact isScalar_marked (.number x) marks
      | text hs =>
        exact isScalar_marked (.text hs) marks
    · exact ih (fun w hw => h w (List.mem_cons_of_mem v hw)) _ m hm

/-- Brackets between commas are for lists only: no scalar binds as loose as the comma, if no
deferred operation does. -/
theorem IsScalar.member_eq_sequence (hprecedence : ∀ {es origin p}, σ.Deferred es origin p → 1 ≤ p)
    {a : Operand} (h : a.IsScalar σ) : a.member = a.sequence := by
  have hcomma : Binary.comma.precedence = -1 := rfl
  cases h with
  | constant _ _ =>
    rfl
  | marker _ =>
    rfl
  | deferred h =>
    have hpos := hprecedence h
    rw [member, decide_eq_false (by omega)]
    rfl

/-- A scalar contributes itself to a group. -/
theorem IsScalar.groupMembers {a : Operand} (h : a.IsScalar σ) : a.groupMembers = [a] := by
  cases h with
  | constant h _ =>
    cases h <;> rfl
  | marker _ =>
    rfl
  | deferred _ =>
    rfl

/-- A function takes a scalar as its only member. -/
theorem IsScalar.deferCall {a : Operand} (h : a.IsScalar σ) (f : Function) :
    Deferral.deferCall (.function f) a =
      .ok (Deferral.call (.function f) a.sequence [a]) := by
  cases h <;> rfl

/-- What an operand contributes to a group are scalars. -/
theorem Formed.groupMembers {a : Operand} (h : Formed σ a) :
    a.groupMembers ≠ [] ∧ (∀ m ∈ a.groupMembers, m.IsScalar σ) ∧
      (a.value? = none → ∃ m ∈ a.groupMembers, m.isSymbolic = true) := by
  cases h with
  | scalar h =>
    rw [h.groupMembers]
    refine ⟨by simp, ?_, ?_⟩
    · intro m hm
      rw [List.mem_singleton] at hm
      subst hm
      exact h
    · intro hnone
      exact ⟨a, by simp, isSymbolic_iff.2 hnone⟩
  | @list vs marks h =>
    have hmembers := h.members
    refine ⟨?_, ?_, ?_⟩
    · intro hnil
      have hlength := length_ofMembers vs (Operand.atom (.constant (.list vs) marks)).marks
      have hnil' : ofMembers vs (Operand.atom (.constant (.list vs) marks)).marks = [] := hnil
      rw [hnil'] at hlength
      exact hmembers.1 (List.eq_nil_of_length_eq_zero hlength.symm)
    · exact isScalar_ofMembers hmembers.2 _
    · intro hnone
      cases hnone
  | @group members hlength hsymbolic hscalar =>
    refine ⟨?_, hscalar, fun _ => hsymbolic⟩
    rintro rfl
    simp at hlength

theorem Formed.makeGroup {a c : Operand} (ha : Formed σ a) (hc : Formed σ c)
    (h : a.value? = none ∨ c.value? = none) : Formed σ (makeGroup a c) := by
  -- each side contributes a member at least, and the symbolic side a symbolic one
  obtain ⟨hne, hscalar, hsymbolic⟩ := ha.groupMembers
  obtain ⟨hne', hscalar', hsymbolic'⟩ := hc.groupMembers
  refine .group ?_ ?_ ?_
  · have hpos := List.length_pos_iff.2 hne
    have hpos' := List.length_pos_iff.2 hne'
    rw [List.length_append]
    omega
  · rcases h with h | h
    · obtain ⟨m, hm, hs⟩ := hsymbolic h
      exact ⟨m, List.mem_append_left _ hm, hs⟩
    · obtain ⟨m, hm, hs⟩ := hsymbolic' h
      exact ⟨m, List.mem_append_right _ hm, hs⟩
  · intro m hm
    rcases List.mem_append.1 hm with hm | hm
    · exact hscalar m hm
    · exact hscalar' m hm

end Operand

namespace Shape

/-- Deferring an operator on operands of a shape meets the requirements of the shape. -/
structure Closed [Capacity] (σ : Shape) : Prop where
  text : HoldsOfShort σ.Text
  combine : ∀ {op : Binary} {a c : Operand}, op ≠ .comma → a.Formed σ → c.Formed σ →
    Deferral.binary op a c = .ok (Deferral.combine op a c) →
      σ.Deferred (binarySequence a (.binary op) c op.precedence) (commonOrigin [a, c])
        op.precedence
  call : ∀ (f : Function) {a : Operand}, a.IsScalar σ → a.value? = none →
    σ.Deferred (callSequence (.function f) a.sequence) (commonOrigin [a]) atomicPrecedence
  callGroup : ∀ (f : Function) {members : List Operand}, 2 ≤ members.length →
    (∃ m ∈ members, m.isSymbolic = true) → (∀ m ∈ members, m.IsScalar σ) →
      Deferral.foldMembers (.function f) members = .ok members →
        σ.Deferred (callSequence (.function f) (joinMembers members)) (commonOrigin members)
          atomicPrecedence

variable {σ : Shape}

theorem formed_number (x : Float) : (value (.number x)).Formed σ :=
  .scalar (isScalar_value (.number x))

section

variable [Capacity]

theorem Closed.formed_combine (h : σ.Closed) {op : Binary} (hop : op ≠ .comma) {a c : Operand}
    (ha : a.Formed σ) (hc : c.Formed σ)
    (hbinary : Deferral.binary op a c = .ok (Deferral.combine op a c)) :
    (Deferral.combine op a c).Formed σ :=
  .scalar (.deferred (h.combine hop ha hc hbinary))

theorem Closed.deferBinary (h : σ.Closed) {op : Binary} {a c : Operand} (ha : a.Formed σ)
    (hc : c.Formed σ) (hnone : a.value? = none ∨ c.value? = none) :
    (Deferral.deferBinary op a c).Formed σ := by
  -- an operation that is left as it is would be left so again
  have hleft : op ≠ .comma → Deferral.deferBinary op a c = Deferral.combine op a c →
      (Deferral.combine op a c).Formed σ := by
    intro hop hdefer
    refine h.formed_combine hop ha hc ?_
    rw [Deferral.binary_of_symbolic hnone, hdefer]
  cases op with
  | comma =>
    exact ha.makeGroup hc hnone
  | add =>
    simp only [Deferral.deferBinary] at hleft ⊢
    split
    · rename_i hsame
      exact h.formed_combine (by decide) ha (formed_number 2) (Deferral.binary_double hsame)
    · rename_i hdiffer
      exact hleft (by decide) (if_neg hdiffer)
  | sub =>
    simp only [Deferral.deferBinary] at hleft ⊢
    split
    · -- a symbol minus itself
      exact formed_number 0
    · rename_i hdiffer
      exact hleft (by decide) (if_neg hdiffer)
  | mul =>
    simp only [Deferral.deferBinary] at hleft ⊢
    split
    · exact ha
    · rename_i hleftOne
      split
      · exact hc
      · rename_i hrightOne
        exact hleft (by decide) ((if_neg hleftOne).trans (if_neg hrightOne))
  | div =>
    exact hleft (by decide) rfl
  | rem =>
    exact hleft (by decide) rfl

theorem Closed.binary (h : σ.Closed) {op : Binary} {a c z : Operand} (ha : a.Formed σ)
    (hc : c.Formed σ) (hz : Deferral.binary op a c = .ok z) : z.Formed σ := by
  -- one symbolic operand is enough for the operator to be deferred
  by_cases hnone : a.value? = none ∨ c.value? = none
  · rw [Deferral.binary_of_symbolic hnone] at hz
    cases hz
    exact h.deferBinary ha hc hnone
  · obtain ⟨v, hv⟩ := Option.ne_none_iff_exists'.1 fun h => hnone (Or.inl h)
    obtain ⟨w, hw⟩ := Option.ne_none_iff_exists'.1 fun h => hnone (Or.inr h)
    rw [Deferral.binary_of_values hv hw] at hz
    obtain ⟨u, hu, hz⟩ := Except.exists_of_bind_eq_ok hz
    obtain rfl := Except.ok.inj hz
    exact formed_marked (Binary.execute_plain h.text (ha.value? hv) (hc.value? hw) hu) _

end

/-- Folded members are scalars if the members were. -/
theorem isScalar_folds {f : Function} {ms ms' : List Operand} (hfolds : Deferral.Folds f ms ms')
    (hms : ∀ m ∈ ms, m.IsScalar σ) : ∀ m ∈ ms', m.IsScalar σ := by
  intro m hm
  cases hfolds.mem m hm with
  | kept hmem =>
    exact hms m hmem
  | number x =>
    exact isScalar_value (.number x)
  | text hn hs =>
    -- the text satisfies what is required of texts, since a scalar before had it
    cases hms _ hn with
    | constant h _ =>
      cases hs
      exact isScalar_value h
    | marker _ =>
      cases hs
    | deferred _ =>
      cases hs

theorem Closed.function [Capacity] (h : σ.Closed) {f : Function} {a z : Operand} (ha : a.Formed σ)
    (hz : Deferral.function f a = .ok z) : z.Formed σ := by
  cases hvalue : a.value? with
  | some v =>
    rw [Deferral.function_of_value hvalue] at hz
    obtain ⟨u, hu, hz⟩ := Except.exists_of_bind_eq_ok hz
    obtain rfl := Except.ok.inj hz
    exact formed_marked (Function.execute_plain (ha.value? hvalue) hu) _
  | none =>
    rw [Deferral.function_of_symbolic hvalue] at hz
    cases ha with
    | scalar ha =>
      rw [ha.deferCall] at hz
      obtain rfl := Except.ok.inj hz
      exact .scalar (.deferred (h.call f ha hvalue))
    | list marks hlist =>
      -- a list without symbolic members has a value
      cases hvalue
    | @group members hlength hsymbolic hscalar =>
      obtain ⟨members', hcall, hfolds, hfold⟩ := Deferral.deferCall_group f members
      rw [hcall] at hz
      obtain rfl := Except.ok.inj hz
      exact .scalar (.deferred (h.callGroup f (hfolds.length hlength hsymbolic)
        (Deferral.exists_symbolic_of_foldMembers hfold hsymbolic)
        (isScalar_folds hfolds hscalar) (Deferral.foldMembers_spec f hfold).2))

end Shape

end Reckon

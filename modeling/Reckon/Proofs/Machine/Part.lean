import Reckon.Proofs.Machine.Input

/-!
# Part — inputs that can stand among others

A part of a flat sequence holds together against operators that bind looser than some precedence,
and brackets are needed around it only against the others:

* `Machine.Part r is o p` — `is` stands for its outcome `o` wherever operators bind looser than `p`;
* `Machine.Part.binary`, `Machine.Part.call` — parts that are made of parts, with brackets where
  they are needed;
* `Machine.Part.final` — a part by itself comes to its outcome.
-/

namespace Reckon
namespace Machine

variable {α : Type}

/-- Inputs in brackets, if `wrap` is set. -/
def wrapped (wrap : Bool) (is : List (Input α)) : List (Input α) :=
  if wrap then .operator (.bracket .left) :: is ++ [.operator (.bracket .right)] else is

/-- Inputs that stand for their outcome wherever operators bind looser than `p`; those that bind
tighter than any operator also hold together behind a minus. -/
inductive Part (r : Reducer α) (is : List (Input α)) (o : Except Error α) (p : Int) : Prop where
  | operation : -1 ≤ p → p ≤ 2 → Computes r p is o → Part r is o p
  | tight : 2 < p → ComputesTight r is o → Part r is o p

namespace Part

variable {r : Reducer α} {is js : List (Input α)} {o o' : Except Error α} {p q : Int}

theorem computes (h : Part r is o p) (hqp : q ≤ p) (hq : q ≤ 2) : Computes r q is o := by
  cases h with
  | operation _ _ h =>
    exact h.mono hqp
  | tight _ h =>
    exact h.computes hq

/-- Any part holds together at the lowest precedence. -/
theorem lowest (h : Part r is o p) : Computes r (-1) is o := by
  refine h.computes ?_ (by decide)
  cases h with
  | operation hp _ _ =>
    exact hp
  | tight hp _ =>
    omega

theorem final (h : Part r is o p) :
    (feedAll r .empty is >>= fun s => settle r Operator.executable s >>= Machine.final) = o :=
  h.lowest.final

/-! ## Operands of operators -/

/-- A left operand binds at least as tight as the operator, or it stands in brackets. -/
theorem left (h : Part r is o p) (hq : q ≤ 2) : Computes r q (wrapped (p < q) is) o := by
  by_cases hpq : p < q
  · rw [decide_eq_true hpq]
    exact h.lowest.bracket.computes hq
  · rw [decide_eq_false hpq]
    exact h.computes (by omega) hq

/-- A right operand binds tighter than the operator, or it stands in brackets. -/
theorem right (h : Part r is o p) :
    (∃ p', q < p' ∧ Computes r p' (wrapped (p ≤ q) is) o) ∨
      ComputesTight r (wrapped (p ≤ q) is) o := by
  by_cases hpq : p ≤ q
  · rw [decide_eq_true hpq]
    exact Or.inr h.lowest.bracket
  · rw [decide_eq_false hpq]
    cases h with
    | operation _ _ h =>
      exact Or.inl ⟨p, by omega, h⟩
    | tight _ h =>
      exact Or.inr h

/-! ## Parts of parts -/

theorem operand (r : Reducer α) (o : Except Error α) (hp : 2 < p) : Part r [.operand o] o p :=
  .tight hp (computesTight_operand r o)

/-- A left operand that holds together is all that an operator needs on its left. -/
theorem binary_of_computes {op : Binary} (h : Computes r op.precedence is o)
    (h' : Part r js o' q) :
    Part r (is ++ .operator (.binary op) :: wrapped (q ≤ op.precedence) js)
      (o >>= fun v => o' >>= fun w => r.binary op v w) op.precedence := by
  have hop : -1 ≤ op.precedence := by cases op <;> decide
  refine .operation hop (precedence_le (.binary op)) ?_
  -- a right operand in brackets or without operators may follow any operator
  rcases h'.right with ⟨q', hq', hright⟩ | hright
  · exact h.binary op (Int.le_refl _) hright hq'
  · exact h.binary_tight op (Int.le_refl _) hright

/-- Two parts with an operator between them. -/
theorem binary (h : Part r is o p) (h' : Part r js o' q) (op : Binary) :
    Part r (wrapped (p < op.precedence) is ++ .operator (.binary op) ::
      wrapped (q ≤ op.precedence) js) (o >>= fun v => o' >>= fun w => r.binary op v w)
      op.precedence :=
  binary_of_computes (h.left (precedence_le (.binary op))) h'

theorem call (h : Part r is o p) (f : Function) (hq : 2 < q) :
    Part r (.operator (.function f) :: wrapped true is) (o >>= r.function f) q :=
  .tight hq (h.lowest.call f)

end Part

end Machine

end Reckon

import Reckon.Proofs.Formula.Tree
import Reckon.Proofs.Machine.Part

/-!
# Bracketing — just enough brackets

A tree is written as a flat sequence with brackets around an operand only where the precedences ask
for them.  These brackets are enough, and none of them can be left out:

* `Tree.sequence` — how a tree is written;
* `Tree.ofSequence_sequence` — what is written is read as the tree that it was written for;
* `Tree.exists_of_left_unbracketed`, `Tree.exists_of_right_unbracketed` — without the brackets
  around one operand, another tree is read.

An operand without its brackets is taken apart: the operator next to it takes the nearest operand
that binds tight enough, and only what comes of it is an operand of the operators that are left.
-/

namespace Reckon

open Machine Operand

namespace Tree

open Interpretation

/-- The precedence of the operator that is executed last. -/
def precedence : Tree → Int
  | .binary op _ _ => op.precedence
  | _ => atomicPrecedence

theorem precedence_binary (op : Binary) (t u : Tree) :
    (Tree.binary op t u).precedence = op.precedence := rfl

/-- Leaves and calls bind tighter than any operator. -/
theorem lt_atomic (op : Binary) : op.precedence < atomicPrecedence :=
  Int.lt_of_le_of_lt (precedence_le (.binary op)) (by decide)

theorem atomic_le (op : Binary) : op.precedence ≤ atomicPrecedence :=
  Int.le_of_lt (lt_atomic op)

/-- A tree as a flat sequence. -/
def sequence : Tree → List Element
  | .constant v marks => [.constant v marks]
  | .marker name => [.marker name]
  | .binary op t u =>
    bracketed (t.precedence < op.precedence) t.sequence ++ .operator (.binary op) ::
      bracketed (u.precedence ≤ op.precedence) u.sequence
  | .call f t => callSequence (.function f) t.sequence

/-- A sequence that is read as a tree wherever operators bind looser than the tree does. -/
def IsRead (es : List Element) (t : Tree) : Prop :=
  Part building.toReducer (building.inputs es) (.ok t) t.precedence

variable {es es' : List Element} {op : Binary} {t u : Tree}

/-! ## Sequences made of sequences -/

theorem IsRead.ofSequence (h : IsRead es t) : ofSequence es = .ok t :=
  (result_replay building es).trans h.final

theorem inputs_binary (es : List Element) (op : Binary) (wrap : Bool) (es' : List Element) :
    building.inputs (es ++ .operator (.binary op) :: bracketed wrap es') =
      building.inputs es ++ .operator (.binary op) :: wrapped wrap (building.inputs es') := by
  rw [← building.inputs_bracketed]
  exact List.map_append

/-- A left operand that holds together is all that an operator needs on its left. -/
theorem isRead_binary (h : Computes building.toReducer op.precedence (building.inputs es) (.ok t))
    (h' : IsRead es' u) :
    IsRead (es ++ .operator (.binary op) :: bracketed (u.precedence ≤ op.precedence) es')
      (.binary op t u) := by
  unfold IsRead
  rw [inputs_binary]
  exact Part.binary_of_computes h h'

theorem IsRead.left (h : IsRead es t) (op : Binary) :
    Computes building.toReducer op.precedence
      (building.inputs (bracketed (t.precedence < op.precedence) es)) (.ok t) := by
  rw [building.inputs_bracketed]
  exact Part.left h (precedence_le (.binary op))

theorem IsRead.binary (h : IsRead es t) (h' : IsRead es' u) (op : Binary) :
    IsRead (bracketed (t.precedence < op.precedence) es ++ .operator (.binary op) ::
      bracketed (u.precedence ≤ op.precedence) es') (.binary op t u) :=
  isRead_binary (h.left op) h'

theorem IsRead.call (h : IsRead es t) (f : Function) :
    IsRead (callSequence (.function f) es) (.call f t) := by
  have hinputs : building.inputs (callSequence (.function f) es) =
      .operator (.function f) :: wrapped true (building.inputs es) := by
    rw [← building.inputs_bracketed]
    rfl
  unfold IsRead
  rw [hinputs]
  exact Part.call h f (show 2 < atomicPrecedence by decide)

/-! ## Brackets are enough -/

theorem isRead_sequence (t : Tree) : IsRead t.sequence t := by
  induction t with
  | constant v marks =>
    exact Part.operand _ _ (show 2 < atomicPrecedence by decide)
  | marker name =>
    exact Part.operand _ _ (show 2 < atomicPrecedence by decide)
  | binary op t u iht ihu =>
    exact iht.binary ihu op
  | call f t ih =>
    exact ih.call f

/-- A tree is read back from how it is written. -/
theorem ofSequence_sequence (t : Tree) : ofSequence t.sequence = .ok t :=
  (isRead_sequence t).ofSequence

/-! ## Left operands

Behind an operand without its brackets, an operator takes the nearest operand that binds tight
enough.
-/

/-- A tree that holds together against the operator, or stands in brackets, is its left operand. -/
theorem exists_whole_left {q : Int} (t u : Tree) (hq : q < op.precedence)
    (h : t.precedence ≤ q ∨ op.precedence ≤ t.precedence) :
    ∃ z, q < z.precedence ∧ IsRead (bracketed (t.precedence ≤ q) t.sequence ++
      .operator (.binary op) :: bracketed (u.precedence ≤ op.precedence) u.sequence) z := by
  have hwrap : t.precedence ≤ q ↔ t.precedence < op.precedence := by omega
  refine ⟨.binary op t u, hq, ?_⟩
  simp only [hwrap]
  exact (isRead_sequence t).binary (isRead_sequence u) op

/-- The operator at the root keeps its left operand, and takes what becomes of the right one. -/
theorem isRead_taken_left {root : Binary} (left : Tree) {right taken : Tree}
    (hroot : root.precedence < taken.precedence)
    (h : IsRead (bracketed (right.precedence ≤ root.precedence) right.sequence ++ es) taken) :
    IsRead ((Tree.binary root left right).sequence ++ es) (.binary root left taken) := by
  have hread := (isRead_sequence left).binary h root
  rw [decide_eq_false (by omega : ¬taken.precedence ≤ root.precedence)] at hread
  rw [sequence, List.append_assoc]
  exact hread

/-- With brackets only against an operator in front that binds looser, an operand and the operator
behind it make a tree that binds tighter than the one in front. -/
theorem exists_isRead_left (u : Tree) {op : Binary} {q : Int} (hq : q < op.precedence) (t : Tree) :
    ∃ z, q < z.precedence ∧ IsRead (bracketed (t.precedence ≤ q) t.sequence ++
      .operator (.binary op) :: bracketed (u.precedence ≤ op.precedence) u.sequence) z := by
  -- as long as the operator binds tighter than the root, it goes on to the right operand
  induction t generalizing q with
  | constant v marks =>
    exact exists_whole_left _ u hq (Or.inr (atomic_le op))
  | marker name =>
    exact exists_whole_left _ u hq (Or.inr (atomic_le op))
  | call f t =>
    exact exists_whole_left _ u hq (Or.inr (atomic_le op))
  | binary root left right _ ih =>
    by_cases hholds : root.precedence ≤ q ∨ op.precedence ≤ root.precedence
    · exact exists_whole_left _ u hq hholds
    · obtain ⟨taken, hroot, hread⟩ := ih (q := root.precedence) (by omega)
      have hbare : ¬root.precedence ≤ q := fun h => hholds (Or.inl h)
      refine ⟨.binary root left taken, Int.lt_of_not_ge hbare, ?_⟩
      rw [precedence_binary, decide_eq_false hbare]
      exact isRead_taken_left left hroot hread

/-- Without the brackets around its left operand, an operator does not take the operand as a
whole. -/
theorem exists_of_left_unbracketed (h : t.precedence < op.precedence) (u : Tree) :
    ∃ z, ofSequence (t.sequence ++ .operator (.binary op) ::
      bracketed (u.precedence ≤ op.precedence) u.sequence) = .ok z ∧ z ≠ .binary op t u := by
  have hatomic := atomic_le op
  cases t with
  | constant v marks =>
    exact absurd h (Int.not_lt.2 hatomic)
  | marker name =>
    exact absurd h (Int.not_lt.2 hatomic)
  | call f t =>
    exact absurd h (Int.not_lt.2 hatomic)
  | binary root left right =>
    obtain ⟨taken, hroot, hread⟩ := exists_isRead_left u h right
    refine ⟨_, (isRead_taken_left left hroot hread).ofSequence, ?_⟩
    -- the left operand of the operator that is executed last is only a part of the operand
    intro heq
    cases heq

/-! ## Right operands

In front of an operand without its brackets, an operator takes only the first part of it.
-/

/-- A tree that holds together against the operator, or stands in brackets, is its right operand. -/
theorem exists_whole_right {q : Int} (t u : Tree) (hq : q ≤ op.precedence)
    (h : u.precedence < q ∨ op.precedence < u.precedence) :
    ∃ z, q ≤ z.precedence ∧ IsRead (bracketed (t.precedence < op.precedence) t.sequence ++
      .operator (.binary op) :: bracketed (u.precedence < q) u.sequence) z := by
  have hwrap : u.precedence < q ↔ u.precedence ≤ op.precedence := by omega
  refine ⟨.binary op t u, hq, ?_⟩
  simp only [hwrap]
  exact (isRead_sequence t).binary (isRead_sequence u) op

/-- The operator at the root keeps its right operand, and takes what becomes of the left one. -/
theorem isRead_taken_right {root : Binary} {left taken : Tree} (right : Tree)
    (hroot : root.precedence ≤ taken.precedence)
    (h : IsRead (es ++ bracketed (left.precedence < root.precedence) left.sequence) taken) :
    IsRead (es ++ (Tree.binary root left right).sequence) (.binary root taken right) := by
  have hread := h.binary (isRead_sequence right) root
  rw [decide_eq_false (Int.not_lt.2 hroot)] at hread
  rw [sequence, ← List.append_assoc]
  exact hread

/-- With brackets only against an operator behind that binds as loose or looser, an operand and the
operator in front of it make a tree that the one behind takes as a whole. -/
theorem exists_isRead_right (t : Tree) {op : Binary} {q : Int} (hq : q ≤ op.precedence) (u : Tree) :
    ∃ z, q ≤ z.precedence ∧ IsRead (bracketed (t.precedence < op.precedence) t.sequence ++
      .operator (.binary op) :: bracketed (u.precedence < q) u.sequence) z := by
  induction u generalizing q with
  | constant v marks =>
    exact exists_whole_right t _ hq (Or.inr (lt_atomic op))
  | marker name =>
    exact exists_whole_right t _ hq (Or.inr (lt_atomic op))
  | call f u =>
    exact exists_whole_right t _ hq (Or.inr (lt_atomic op))
  | binary root left right ih _ =>
    by_cases hholds : root.precedence < q ∨ op.precedence < root.precedence
    · exact exists_whole_right t _ hq hholds
    · obtain ⟨taken, hroot, hread⟩ := ih (q := root.precedence) (by omega)
      have hbare : ¬root.precedence < q := fun h => hholds (Or.inl h)
      refine ⟨.binary root taken right, Int.not_lt.1 hbare, ?_⟩
      rw [precedence_binary, decide_eq_false hbare]
      rw [List.append_cons] at hread ⊢
      exact isRead_taken_right right hroot hread

/-- Without the brackets around its right operand, an operator does not take the operand as a
whole. -/
theorem exists_of_right_unbracketed (h : u.precedence ≤ op.precedence) (t : Tree) :
    ∃ z, ofSequence (bracketed (t.precedence < op.precedence) t.sequence ++
      .operator (.binary op) :: u.sequence) = .ok z ∧ z ≠ .binary op t u := by
  have hatomic := lt_atomic op
  cases u with
  | constant v marks =>
    exact absurd h (Int.not_le.2 hatomic)
  | marker name =>
    exact absurd h (Int.not_le.2 hatomic)
  | call f t =>
    exact absurd h (Int.not_le.2 hatomic)
  | binary root left right =>
    obtain ⟨taken, hroot, hread⟩ := exists_isRead_right t h left
    rw [List.append_cons] at hread ⊢
    refine ⟨_, (isRead_taken_right right hroot hread).ofSequence, ?_⟩
    -- the right operand of the operator that is executed last is only a part of the operand
    intro heq
    cases heq

end Tree

end Reckon

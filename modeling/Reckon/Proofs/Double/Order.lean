import Reckon.Proofs.Double.Arithmetic

/-!
# Order — comparing doubles

Doubles other than not-a-number are ordered by the numbers that they stand for.  Here each of them
has a rank of three integers, the lexicographic order of which is the order of the doubles, so that
`<` is a strict weak order: `Double.lt_trans` and `Double.lt_of_lt_of_not_lt`.

Equality of numbers is weaker than equality of doubles in one case only, which is the two zeros.
-/

namespace Reckon
namespace Double

open Float.Model (UnpackedFloat)
open Float.Model.UnpackedFloat

/-! ## Ranks -/

/-- The rank of a number: its class, and within a class its exponent and its mantissa. -/
def rank : UnpackedFloat → Int × Int × Int
  | .notANumber => (0, 0, 0)
  | .infinity .negative => (-2, 0, 0)
  | .finite .negative m e _ => (-1, -e, -m)
  | .zero _ => (0, 0, 0)
  | .finite .positive m e _ => (1, e, m)
  | .infinity .positive => (2, 0, 0)

/-- The lexicographic order of ranks. -/
def Below (a b : Int × Int × Int) : Prop :=
  a.1 < b.1 ∨ a.1 = b.1 ∧ (a.2.1 < b.2.1 ∨ a.2.1 = b.2.1 ∧ a.2.2 < b.2.2)

theorem Below.trans {a b c : Int × Int × Int} (h : Below a b) (h' : Below b c) : Below a c := by
  unfold Below at *
  omega

/-- What is not below the upper of two ranks is above the lower one. -/
theorem Below.of_not_below {a b c : Int × Int × Int} (h : Below a b) (h' : ¬Below c b) :
    Below a c := by
  unfold Below at *
  omega

/-- What is not above the lower of two ranks is below the upper one. -/
theorem Below.of_not_above {a b c : Int × Int × Int} (h : Below a c) (h' : ¬Below a b) :
    Below b c := by
  unfold Below at *
  omega

theorem compare_then_eq_lt {e e' : Int} {m m' : Nat} :
    (compare e e').then (compare m m') = .lt ↔ e < e' ∨ e = e' ∧ m < m' := by
  rw [Ordering.then_eq_lt, Int.compare_eq_lt, Int.compare_eq_eq, Nat.compare_eq_lt]

theorem compare_then_eq_gt {e e' : Int} {m m' : Nat} :
    (compare e e').then (compare m m') = .gt ↔ e' < e ∨ e = e' ∧ m' < m := by
  rw [Ordering.then_eq_gt, Int.compare_eq_gt, Int.compare_eq_eq, Nat.compare_eq_gt]

theorem lt_iff_below (u v : UnpackedFloat) :
    u.lt v = true ↔ u.isNaN = false ∧ v.isNaN = false ∧ Below (rank u) (rank v) := by
  -- numbers of different classes are told apart by the first entry of their ranks
  rcases u with (_ | _) | _ | _ | ⟨_ | _, m, e, hm⟩ <;>
    rcases v with (_ | _) | _ | _ | ⟨_ | _, m', e', hm'⟩ <;>
    simp [UnpackedFloat.lt, UnpackedFloat.compare, UnpackedFloat.isNaN, Below, rank,
      compare_then_eq_lt, compare_then_eq_gt]
  decide

/-- Doubles are ordered as their ranks. -/
theorem lt_iff {x y : Float} :
    x < y ↔ x.isNaN = false ∧ y.isNaN = false ∧ Below (rank (unpacked x)) (rank (unpacked y)) := by
  have hlt : x < y ↔ (unpacked x).lt (unpacked y) = true := decide_eq_true_iff
  exact hlt.trans (lt_iff_below _ _)

theorem lt_trans {x y z : Float} (h : x < y) (h' : y < z) : x < z := by
  rw [lt_iff] at *
  exact ⟨h.1, h'.2.1, h.2.2.trans h'.2.2⟩

/-- A number that is not less than the greater one of two is greater than the lesser one. -/
theorem lt_of_lt_of_not_lt {x y z : Float} (h : x < y) (h' : ¬z < y) (hz : z.isNaN = false) :
    x < z := by
  rw [lt_iff] at *
  refine ⟨h.1, hz, h.2.2.of_not_below fun hbelow => h' ⟨hz, h.2.1, hbelow⟩⟩

/-- A number that is not greater than the lesser one of two is less than the greater one. -/
theorem lt_of_not_lt_of_lt {x y z : Float} (h : ¬x < y) (h' : x < z) (hy : y.isNaN = false) :
    y < z := by
  rw [lt_iff] at *
  refine ⟨hy, h'.2.1, h'.2.2.of_not_above fun hbelow => h ⟨h'.1, hy, hbelow⟩⟩

/-! ## Equality of numbers -/

/-- Whether a double is one of the two zeros. -/
def IsZero (x : Float) : Prop :=
  x = 0 ∨ x = -0

instance (x : Float) : Decidable (IsZero x) :=
  inferInstanceAs (Decidable (x = 0 ∨ x = -0))

/-- Numbers that are equal are the same double, unless they are the two zeros. -/
theorem eq_or_zeros_of_beq {x y : Float} (h : (x == y) = true) : x = y ∨ IsZero x ∧ IsZero y := by
  obtain ⟨_, _, heq | ⟨hx, hy⟩ | ⟨hx, hy⟩⟩ := Float.beq_iff_ne_nan_and_eq.1 h
  · exact Or.inl heq
  · exact Or.inr ⟨Or.inl hx, Or.inr hy⟩
  · exact Or.inr ⟨Or.inr hx, Or.inl hy⟩

theorem eq_one_of_beq {x : Float} (h : (x == 1) = true) : x = 1 := by
  rcases eq_or_zeros_of_beq h with heq | ⟨_, hone⟩
  · exact heq
  · exact absurd hone (by decide +kernel)

theorem eq_of_isNaN {x y : Float} (hx : x.isNaN = true) (hy : y.isNaN = true) : x = y := by
  rw [Float.isNaN_eq_decide_eq_nan, decide_eq_true_eq] at hx hy
  rw [hx, hy]

end Double

end Reckon

import Reckon.Operator.Execute
import Reckon.Proofs.Double.Exact

/-!
# Remainder — the remainder of whole numbers is exact

The remainder is computed on integers, which may have a thousand binary digits, and becomes a double
again at the end.  Nothing is lost there: a remainder is a whole number of the smaller one of the
units of the two operands, and as it is no larger than either operand, it has no more binary digits
than the operand with that unit.

* `Double.FitsSignificand.mod` — this argument;
* `Binary.remainder_exact` — the remainder of all pairs of operands.
-/

namespace Reckon

/-! ## Binary digits of a remainder -/

namespace Double

/-- A remainder of numbers of at most 53 binary digits is one, too. -/
theorem FitsSignificand.mod {m n : ℕ} (hm : FitsSignificand m) (hn : FitsSignificand n) :
    FitsSignificand (m % n : ℕ) := by
  rcases Nat.eq_zero_or_pos n with rfl | hpos
  · rwa [Nat.mod_zero]
  · obtain ⟨i, d, hi, hd, hmunits⟩ := hm
    obtain ⟨j, e, hj, he, hnunits⟩ := hn
    have hnonneg : (0 : ℚ) ≤ (m % n : ℕ) := Nat.cast_nonneg _
    obtain ⟨q, hq⟩ : ∃ q : ℕ, ((m % n : ℕ) : ℚ) = m - n * q := by
      refine ⟨m / n, ?_⟩
      rw [eq_sub_iff_add_eq]
      exact_mod_cast Nat.mod_add_div m n
    rcases le_total e d with hle | hle
    · -- the divisor has the smaller unit, and the remainder is less than the divisor
      obtain ⟨c, rfl⟩ := Int.le.dest hle
      have hlt : ((m % n : ℕ) : ℚ) ≤ j * 2 ^ e := by
        rw [← hnunits]
        exact_mod_cast (Nat.mod_lt m hpos).le
      refine fitsSignificand_of_le (t := i * 2 ^ c - j * q) ?_ hnonneg hlt hj he
      rw [hq, hmunits, hnunits, zpow_add₀ (by norm_num), zpow_natCast]
      push_cast
      ring
    · -- the dividend has the smaller unit, and the remainder is not greater than the dividend
      obtain ⟨c, rfl⟩ := Int.le.dest hle
      have hlt : ((m % n : ℕ) : ℚ) ≤ i * 2 ^ d := by
        rw [← hmunits]
        exact_mod_cast Nat.mod_le m n
      refine fitsSignificand_of_le (t := i - j * 2 ^ c * q) ?_ hnonneg hlt hi hd
      rw [hq, hmunits, hnunits, zpow_add₀ (by norm_num), zpow_natCast]
      push_cast
      ring

/-- A whole number that is a double has at most 53 binary digits. -/
theorem fitsSignificand_of_whole {x : Float} {n : ℤ} (h : whole? x = some n) :
    FitsSignificand n.natAbs := by
  rw [whole?_eq] at h
  obtain ⟨m, hm, hwhole⟩ := Option.bind_eq_some_iff.1 h
  obtain ⟨k, hk, rfl⟩ := Option.map_eq_some_iff.1 hwhole
  have hfits := fitsSignificand_amount (IsCanonical.of_magnitude hm).1
  rw [wholeMagnitude?_eq_some_iff.1 hk] at hfits
  split
  · rwa [Int.natAbs_neg, Int.natAbs_natCast]
  · rwa [Int.natAbs_natCast]

/-- The sign of a whole number other than zero is the sign of the double. -/
theorem isNegative_of_whole {x : Float} {n : ℤ} (h : whole? x = some n) (hn : n ≠ 0) :
    isNegative x = decide (n < 0) := by
  rw [whole?_eq] at h
  obtain ⟨m, -, hwhole⟩ := Option.bind_eq_some_iff.1 h
  obtain ⟨k, -, rfl⟩ := Option.map_eq_some_iff.1 hwhole
  cases hsign : isNegative x with
  | true =>
    rw [hsign, if_pos rfl] at hn
    exact (decide_eq_true (by rw [if_pos rfl]; omega)).symm
  | false =>
    exact (decide_eq_false (by rw [if_neg Bool.false_ne_true]; omega)).symm

/-- The remainder of two whole numbers is a double. -/
theorem exists_remainder {x y : Float} {a b : ℤ} (hx : whole? x = some a) (hy : whole? y = some b) :
    ∃ r, ofInt? (a.tmod b) = some r ∧ isNegative r = decide (a.tmod b < 0) ∧
      rational? r = some ((a.tmod b : ℤ) : ℚ) := by
  have hle : (a.tmod b).natAbs ≤ a.natAbs := by
    rw [Int.natAbs_tmod]
    exact Nat.mod_le _ _
  have hfits : FitsSignificand (a.tmod b).natAbs := by
    rw [Int.natAbs_tmod]
    exact (fitsSignificand_of_whole hx).mod (fitsSignificand_of_whole hy)
  obtain ⟨r, hr⟩ := exists_of_ofInt (hle.trans_lt (natAbs_lt_of_whole hx))
  exact ⟨r, hr, rational?_of_ofInt? hfits hr⟩

end Double

/-! ## The operator -/

open Double

/-- A finite number without a fraction. -/
def Value.IsWhole (v : Value) : Prop :=
  ∃ (x : Float) (n : ℤ), v = .number x ∧ rational? x = some (n : ℚ)

/-- The double `r` is the remainder of the division of `a`, which is the double `x`, by `b`, with
the quotient truncated towards zero.  It is exact, and it is positive zero or has the sign of
`x`. -/
structure IsRemainder (x : Float) (a b : ℤ) (r : Float) : Prop where
  exact : ∃ n : ℤ, rational? r = some (n : ℚ) ∧ a = b * a.tdiv b + n ∧ |n| < |b|
  sign : r = 0 ∨ ¬IsZero r ∧ isNegative r = isNegative x

namespace Binary

theorem isRemainder_of_ofInt? {x r : Float} {a b : ℤ} (hx : whole? x = some a) (hb : b ≠ 0)
    (hofInt : ofInt? (a.tmod b) = some r) (hsign : isNegative r = decide (a.tmod b < 0))
    (hr : rational? r = some ((a.tmod b : ℤ) : ℚ)) : IsRemainder x a b r where
  exact := by
    refine ⟨a.tmod b, hr, (Int.mul_tdiv_add_tmod a b).symm, ?_⟩
    rw [Int.abs_eq_natAbs, Int.abs_eq_natAbs, Int.natAbs_tmod]
    exact_mod_cast Nat.mod_lt _ (Int.natAbs_pos.2 hb)
  sign := by
    by_cases hzero : a.tmod b = 0
    · rw [hzero] at hofInt
      cases hofInt
      exact Or.inl rfl
    · refine Or.inr ⟨?_, ?_⟩
      · rw [isZero_iff, hr, Option.some.injEq, Int.cast_eq_zero]
        exact hzero
      · have ha : a ≠ 0 := by
          rintro rfl
          exact hzero (Int.zero_tmod b)
        rw [hsign, isNegative_of_whole hx ha, decide_eq_decide]
        -- the remainder is not on the other side of zero
        rcases lt_or_gt_of_ne ha with hneg | hpos
        · have hle : (-a).tmod b ≥ 0 := Int.tmod_nonneg b (by omega)
          rw [Int.neg_tmod] at hle
          omega
        · have hle : a.tmod b ≥ 0 := Int.tmod_nonneg b hpos.le
          omega

/-- The remainder of any two operands.  That of whole numbers, of whatever size, is exact; whole
numbers are not divided by either zero; and all other operands are refused. -/
theorem remainder_exact [Capacity] :
    (∀ (x y : Float) (a b : ℤ), rational? x = some (a : ℚ) → rational? y = some (b : ℚ) →
      ¬IsZero y → ∃ r, rem.execute (.number x) (.number y) = .ok (.number r) ∧
        IsRemainder x a b r) ∧
    (∀ (x y : Float) (a : ℤ), rational? x = some (a : ℚ) → IsZero y →
      rem.execute (.number x) (.number y) = .error (.divisionByZero (.binary .rem))) ∧
    ∀ v w : Value, ¬(v.IsWhole ∧ w.IsWhole) →
      rem.execute v w = .error (.invalidArguments (.binary .rem) none) := by
  have hexecute : ∀ {x y : Float} {a b : ℤ}, whole? x = some a → whole? y = some b →
      rem.execute (.number x) (.number y) = executeRem a b := by
    intro x y a b hx hy
    rw [execute, hx, hy]
  refine ⟨?_, ?_, ?_⟩
  · intro x y a b hx hy hzero
    rw [← whole?_eq_some_iff] at hx hy
    have hb : b ≠ 0 := by
      rintro rfl
      exact hzero (isZero_iff.2 (by exact_mod_cast whole?_eq_some_iff.1 hy))
    obtain ⟨r, hofInt, hsign, hr⟩ := exists_remainder hx hy
    refine ⟨r, ?_, isRemainder_of_ofInt? hx hb hofInt hsign hr⟩
    rw [hexecute hx hy, executeRem, if_neg hb, hofInt]
  · intro x y a hx hzero
    rw [← whole?_eq_some_iff] at hx
    have hy : whole? y = some 0 := whole?_eq_some_iff.2 (by exact_mod_cast isZero_iff.1 hzero)
    rw [hexecute hx hy, executeRem, if_pos rfl]
  · intro v w hnot
    cases v with
    | number x =>
      cases w with
      | number y =>
        rw [execute]
        split
        · rename_i a b hx hy
          have hwhole : (Value.number x).IsWhole := ⟨x, a, rfl, whole?_eq_some_iff.1 hx⟩
          have hwhole' : (Value.number y).IsWhole := ⟨y, b, rfl, whole?_eq_some_iff.1 hy⟩
          exact absurd ⟨hwhole, hwhole'⟩ hnot
        · rfl
      | text _ | list _ | stray _ =>
        rfl
    | text _ | list _ | stray _ =>
      rfl

/-- A dividend of 74 binary digits with a negative sign, the negative zero as a divisor, and a
dividend with a fraction. -/
theorem remainder_exact_of_large :
    rational? (-1e22) = some ((-10 ^ 22 : ℤ) : ℚ) ∧ rational? 3 = some ((3 : ℤ) : ℚ) ∧ ¬IsZero 3 ∧
    (∃ r, rem.execute (.number (-1e22)) (.number 3) = .ok (.number r) ∧
      IsRemainder (-1e22) (-10 ^ 22) 3 r) ∧
    (IsZero (-0) ∧ rem.execute (.number 3) (.number (-0)) =
      .error (.divisionByZero (.binary .rem))) ∧
    (¬((Value.number 0.5).IsWhole ∧ (Value.number 0).IsWhole) ∧
      rem.execute (.number 0.5) (.number 0) = .error (.invalidArguments (.binary .rem) none)) := by
  obtain ⟨hwhole, hzero, hother⟩ := remainder_exact
  have hx : rational? (-1e22) = some ((-10 ^ 22 : ℤ) : ℚ) :=
    whole?_eq_some_iff.1 (by decide +kernel)
  have hy : rational? 3 = some ((3 : ℤ) : ℚ) := whole?_eq_some_iff.1 (by decide +kernel)
  have hthree : ¬IsZero 3 := by decide +kernel
  have hnegative : IsZero (-0) := Or.inr rfl
  have hhalf : ¬((Value.number 0.5).IsWhole ∧ (Value.number 0).IsWhole) := by
    rintro ⟨⟨x, n, hx, hn⟩, -⟩
    cases hx
    have hnone : whole? 0.5 = none := by decide +kernel
    rw [← whole?_eq_some_iff, hnone] at hn
    cases hn
  exact ⟨hx, hy, hthree, hwhole _ _ _ _ hx hy hthree, ⟨hnegative, hzero _ _ _ hy hnegative⟩,
    hhalf, hother _ _ hhalf⟩

end Binary
end Reckon

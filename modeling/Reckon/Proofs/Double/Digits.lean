import Reckon.Proofs.Double.Interval

/-!
# Digits — the shortest digits read back

The search for the shortest digits tries up to seventeen of them, and it takes no number outside the
interval of the double.  It never comes out empty: with seventeen digits the grid is finer than the
interval is wide.

* `Shortest.pow_floorLog10_le` — the first digit is not put too high;
* `Shortest.onGrid?_ne_none` — a grid that is fine enough has a point in the interval;
* `Shortest.contains_digits` — the digits lie in the interval.
-/

namespace Reckon
namespace Shortest

open Double

/-! ## The first digit -/

/-- A power of ten below a power of two, from 10⁵⁹ ≤ 2¹⁹⁶ and 2⁹³ ≤ 10²⁸. -/
theorem zpow_ten_le {p a : ℤ} (hup : 0 ≤ p → 196 * p ≤ 59 * a) (hdown : p ≤ 0 → 93 * p ≤ 28 * a) :
    (10 : ℚ) ^ p ≤ 2 ^ a := by
  rcases Int.le_total 0 p with hp | hp
  · -- both sides to the power 59, where the bound on the exponents is one on integers
    have hbase : (10 : ℚ) ^ (59 : ℤ) ≤ 2 ^ (196 : ℤ) := by norm_num
    have hpowers : ((10 : ℚ) ^ p) ^ 59 ≤ ((2 : ℚ) ^ a) ^ 59 := by
      calc ((10 : ℚ) ^ p) ^ 59
          = ((10 : ℚ) ^ (59 : ℤ)) ^ p := by
            rw [← zpow_natCast, ← zpow_mul, ← zpow_mul, mul_comm]
            rfl
        _ ≤ ((2 : ℚ) ^ (196 : ℤ)) ^ p := zpow_le_zpow_left₀ hp (by positivity) hbase
        _ = 2 ^ (196 * p) := (zpow_mul _ _ _).symm
        _ ≤ 2 ^ (59 * a) := zpow_le_zpow_right₀ (by norm_num) (hup hp)
        _ = ((2 : ℚ) ^ a) ^ 59 := by
            rw [mul_comm, zpow_mul]
            rfl
    exact le_of_pow_le_pow_left₀ (by norm_num) (by positivity) hpowers
  · -- a power of two that is not below one needs no bound
    rcases Int.le_total 0 a with ha | ha
    · calc (10 : ℚ) ^ p
          ≤ 1 := zpow_le_one_of_nonpos₀ (by norm_num) hp
        _ ≤ 2 ^ a := one_le_zpow₀ (by norm_num) ha
    · have hbase : ((10 : ℚ) ^ (28 : ℤ))⁻¹ ≤ (2 ^ (93 : ℤ))⁻¹ := by
        rw [inv_le_inv₀ (by positivity) (by positivity)]
        norm_num
      have hpowers : ((10 : ℚ) ^ p) ^ 93 ≤ ((2 : ℚ) ^ a) ^ 93 := by
        calc ((10 : ℚ) ^ p) ^ 93
            = 10 ^ (93 * p) := by
              rw [mul_comm, zpow_mul]
              rfl
          _ ≤ 10 ^ (28 * a) := zpow_le_zpow_right₀ (by norm_num) (hdown hp)
          _ = (((10 : ℚ) ^ (28 : ℤ))⁻¹) ^ (-a) := by rw [inv_zpow, zpow_neg, inv_inv, zpow_mul]
          _ ≤ (((2 : ℚ) ^ (93 : ℤ))⁻¹) ^ (-a) :=
              zpow_le_zpow_left₀ (by omega) (by positivity) hbase
          _ = ((2 : ℚ) ^ a) ^ 93 := by
              rw [inv_zpow, zpow_neg, inv_inv, ← zpow_mul, mul_comm, zpow_mul]
              rfl
      exact le_of_pow_le_pow_left₀ (by norm_num) (by positivity) hpowers

/-- The first digit is not put too high, as long as the exponent is one that a double can have. -/
theorem pow_floorLog10_le {n : Nat} {s : ℤ} (hn : 0 < n) (hlow : -1100 ≤ n.log2 + s)
    (hhigh : n.log2 + s ≤ 1100) : (10 : ℚ) ^ floorLog10 n s ≤ n * 2 ^ s := by
  unfold floorLog10
  dsimp only
  split
  · -- the estimate is too high, but not by more than one
    have hlog : (2 : ℚ) ^ (n.log2 : ℤ) ≤ n := by
      exact_mod_cast Nat.log2_self_le hn.ne'
    have hestimate : (10 : ℚ) ^ (((n.log2 + s) * 30103).fdiv 100000 - 1) ≤
        2 ^ ((n.log2 : ℤ) + s) := by
      rw [Int.fdiv_eq_ediv_of_nonneg _ (by decide)]
      refine zpow_ten_le ?_ ?_
      · intro hp
        omega
      · intro hp
        omega
    refine hestimate.trans ?_
    rw [zpow_add₀ (by norm_num)]
    gcongr
  · split
    · rename_i hmore
      rw [decimalSide_le_iff, Nat.cast_one, Rat.one_mul] at hmore
      exact hmore
    · rename_i hfits _
      rw [not_lt, decimalSide_le_iff, Nat.cast_one, Rat.one_mul] at hfits
      exact hfits

/-! ## Grids -/

section Grid

variable {i : Interval} {s t : ℤ}

/-- The multiple of `10 ^ t` below the middle of an interval. -/
def below (i : Interval) (s t : ℤ) : Nat :=
  binarySide i.middle t s / decimalSide 1 t s

theorem decimalSide_eq_mul (c : Nat) (t s : ℤ) : decimalSide c t s = c * decimalSide 1 t s := by
  simp only [decimalSide, Nat.one_mul, Nat.mul_assoc]

theorem decimalSide_one_pos (t s : ℤ) : 0 < decimalSide 1 t s := by
  unfold decimalSide
  have hten : 0 < Nat.pow 10 t.toNat := Nat.pow_pos (by decide)
  have htwo : 0 < Nat.pow 2 (-s).toNat := Nat.pow_pos (by decide)
  positivity

theorem below_le (i : Interval) (s t : ℤ) : (below i s t * 10 ^ t : ℚ) ≤ i.middle * 2 ^ s := by
  rw [← decimalSide_le_iff, decimalSide_eq_mul]
  exact Nat.div_mul_le_self _ _

theorem lt_below_succ (i : Interval) (s t : ℤ) :
    (i.middle * 2 ^ s : ℚ) < (below i s t + 1 : ℕ) * 10 ^ t := by
  rw [← binarySide_lt_iff, decimalSide_eq_mul, mul_comm]
  exact Nat.lt_mul_div_succ _ (decimalSide_one_pos t s)

/-- A point that is found on a grid lies in the interval. -/
theorem contains_of_onGrid? {d : DecimalMagnitude} (h : onGrid? i s t = some d) :
    i.Contains s (d.significand * 10 ^ d.exponent) := by
  unfold onGrid? at h
  dsimp only at h
  split at h
  · rename_i hbelow _
    cases h
    exact Interval.holds_iff.1 hbelow
  · rename_i habove
    cases h
    exact Interval.holds_iff.1 habove
  · rename_i hbelow habove
    split at h
    · cases h
      exact Interval.holds_iff.1 hbelow
    · split at h
      · cases h
        exact Interval.holds_iff.1 habove
      · -- the even one of the two neighbours
        cases h
        generalize binarySide i.middle t s / decimalSide 1 t s = below at hbelow habove ⊢
        rcases Nat.mod_two_eq_zero_or_one below with heven | hodd
        · rw [heven]
          exact Interval.holds_iff.1 hbelow
        · rw [hodd]
          exact Interval.holds_iff.1 habove
  · cases h

theorem onGrid?_ne_none (h : i.Contains s (below i s t * 10 ^ t) ∨
    i.Contains s ((below i s t + 1 : ℕ) * 10 ^ t)) : onGrid? i s t ≠ none := by
  rw [← Interval.holds_iff, ← Interval.holds_iff] at h
  intro hnone
  unfold onGrid? at hnone
  dsimp only at hnone
  split at hnone
  · cases hnone
  · cases hnone
  · split at hnone
    · cases hnone
    · split at hnone <;> cases hnone
  · rename_i hbelow habove
    rcases h with h | h
    · exact absurd (hbelow.symm.trans h) (by decide)
    · exact absurd (habove.symm.trans h) (by decide)

end Grid

section Magnitude

variable {m : BinaryMagnitude} {t : ℤ}

/-- With seventeen digits one of the neighbours of a double on the grid lies in its interval. -/
theorem contains_of_fine (hcanonical : IsCanonical m.significand m.exponent)
    (hpos : 0 < m.significand) (hfine : (10 : ℚ) ^ t * 10 ^ 16 ≤ amount m) :
    (interval m).Contains (m.exponent - 2) (below (interval m) (m.exponent - 2) t * 10 ^ t) ∨
      (interval m).Contains (m.exponent - 2)
        ((below (interval m) (m.exponent - 2) t + 1 : ℕ) * 10 ^ t) := by
  have hunit : (0 : ℚ) < 2 ^ m.exponent := by positivity
  have hbelow := below_le (interval m) (m.exponent - 2) t
  have habove := lt_below_succ (interval m) (m.exponent - 2) t
  have hupper := upper_interval m
  rw [middle_interval] at hbelow habove
  push_cast at habove ⊢
  generalize below (interval m) (m.exponent - 2) t = n at hbelow habove ⊢
  have hamount := amount_le hcanonical
  push_cast at hamount
  rcases lower_interval hpos with ⟨-, hlower⟩ | ⟨⟨hpower, -⟩, hlower⟩
  · -- the grid is finer than the whole interval, so one of the two is near enough
    rcases lt_or_ge (amount m - n * 10 ^ t) (2 ^ m.exponent / 2) with hnear | hfar
    · refine Or.inl (Interval.contains_of_lt ?_ ?_)
      · rw [hlower]
        linarith
      · rw [hupper]
        linarith
    · refine Or.inr (Interval.contains_of_lt ?_ ?_)
      · rw [hlower]
        linarith
      · rw [hupper]
        linarith
  · -- the grid is finer than the upper half of the interval
    have hexact : amount m = 2 ^ 52 * 2 ^ m.exponent := by
      rw [amount, hpower, fractionSize]
      norm_num
    refine Or.inr (Interval.contains_of_lt ?_ ?_)
    · rw [hlower]
      linarith
    · rw [hupper]
      linarith

end Magnitude

/-! ## Digits -/

variable {m : BinaryMagnitude}

theorem dropZeros_value (c : Nat) (t : ℤ) :
    ((dropZeros c t).significand : ℚ) * 10 ^ (dropZeros c t).exponent = c * 10 ^ t := by
  fun_induction dropZeros c t with
  | case1 c t h ih =>
    have hexact : (((c / 10 : ℕ) * 10 : ℕ) : ℚ) = c :=
      congrArg Nat.cast (Nat.div_mul_cancel (Nat.dvd_of_mod_eq_zero h.2))
    rw [ih, zpow_add₀ (by norm_num), zpow_one, ← hexact]
    push_cast
    ring
  | case2 c t h =>
    rfl

/-- The digits of a double lie in its interval. -/
theorem contains_digits (hcanonical : IsCanonical m.significand m.exponent)
    (hpos : 0 < m.significand) :
    (interval m).Contains (m.exponent - 2) ((digits m).significand * 10 ^ (digits m).exponent) := by
  have hmiddle : (interval m).middle = 4 * m.significand := rfl
  have hlog : (interval m).middle.log2 < 55 := by
    rw [Nat.log2_lt (by omega)]
    have hsignificand := hcanonical.significand_le
    omega
  obtain ⟨hleast, hgreatest⟩ := hcanonical.exponent_bounds
  have htop : (10 : ℚ) ^ floorLog10 (interval m).middle (m.exponent - 2) ≤ amount m := by
    rw [← middle_interval]
    exact pow_floorLog10_le (by omega) (by omega) (by omega)
  -- the last one of the grids is fine enough, so the search ends with a point
  obtain ⟨d, hd⟩ : ∃ d, (List.range 17).findSome? (fun (k : Nat) => onGrid? (interval m)
      (m.exponent - 2) (floorLog10 (interval m).middle (m.exponent - 2) - k)) = some d := by
    refine Option.ne_none_iff_exists'.1 ?_
    intro hnone
    have hlast := List.findSome?_eq_none_iff.1 hnone 16 (by decide)
    refine absurd hlast (onGrid?_ne_none (contains_of_fine hcanonical hpos ?_))
    refine le_trans (le_of_eq ?_) htop
    rw [zpow_sub₀ (by norm_num)]
    norm_num
  have hdigits : digits m = dropZeros d.significand d.exponent := by
    simp only [digits, hd, Option.getD_some]
  obtain ⟨k, -, hk⟩ := List.exists_of_findSome?_eq_some hd
  rw [hdigits, dropZeros_value]
  exact contains_of_onGrid? hk

end Shortest
end Reckon

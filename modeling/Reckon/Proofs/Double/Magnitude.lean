import Reckon.Proofs.Double.Bits
import Reckon.Proofs.Double.Nearest

/-!
# Magnitude — the size of finite doubles

The bits of a finite double hold a significand and an exponent, each of them in its range, and the
bits can be had back from the two.  So no finite double reaches the numbers that round beyond the
largest one, and no integer that is at most as large as one of them does.

* `Double.IsCanonical.of_magnitude` — the magnitude of a double is written in one way only;
* `Double.natAbs_lt_of_whole` — the integers that doubles are;
* `Double.exists_of_ofInt` — integers below the bound have a nearest double.
-/

namespace Reckon
namespace Double

/-- The number that a magnitude stands for. -/
def amount (m : BinaryMagnitude) : ℚ :=
  m.significand * 2 ^ m.exponent

/-- The magnitude of a finite double is canonical, and it gives the bits of the double back. -/
theorem IsCanonical.of_magnitude {x : Float} {m : BinaryMagnitude} (h : magnitude? x = some m) :
    IsCanonical m.significand m.exponent ∧
      x.toBits.toNat % Nat.pow 2 63 =
        (m.exponent - leastExponent).toNat * fractionSize + m.significand := by
  have hfraction : fractionSize = 2 ^ 52 := rfl
  have hinfinite : infiniteBits = 2047 * fractionSize := rfl
  have hleast : leastExponent = -1074 := rfl
  unfold magnitude? at h
  dsimp only at h
  generalize x.toBits.toNat % Nat.pow 2 63 = bits at h
  split at h
  · cases h
  · split at h
    · cases h
      dsimp only
      refine ⟨Or.inl ⟨by omega, hleast⟩, ?_⟩
      rw [Int.sub_self, Int.toNat_zero, Nat.zero_mul, Nat.zero_add]
    · -- the implicit bit leads the significand
      cases h
      dsimp only
      have hdivision := Nat.div_add_mod bits fractionSize
      have hmod : bits % fractionSize < fractionSize := Nat.mod_lt _ (by omega)
      have hlow : 1 ≤ bits / fractionSize := by
        rw [Nat.le_div_iff_mul_le (by omega)]
        omega
      have hhigh : bits / fractionSize < 2047 := by
        rw [Nat.div_lt_iff_lt_mul (by omega)]
        omega
      have hexponent : (leastExponent + (bits / fractionSize - 1 : Nat) - leastExponent).toNat =
          bits / fractionSize - 1 := by omega
      refine ⟨Or.inr (by omega), ?_⟩
      rw [hexponent, Nat.sub_mul]
      have hcomm := Nat.mul_comm fractionSize (bits / fractionSize)
      have hone := Nat.mul_le_mul_right fractionSize hlow
      omega

theorem amount_le {m : BinaryMagnitude} (h : IsCanonical m.significand m.exponent) :
    amount m ≤ (2 ^ 53 - 1 : ℕ) * 2 ^ m.exponent := by
  have hsignificand : (m.significand : ℚ) ≤ (2 ^ 53 - 1 : ℕ) := Nat.cast_le.2 h.significand_le
  rw [amount]
  gcongr

/-- Half a unit above a double its binade goes on. -/
theorem amount_add_half_lt {m : BinaryMagnitude} (h : IsCanonical m.significand m.exponent) :
    amount m + 2 ^ m.exponent / 2 < 2 ^ (m.exponent + 53) := by
  have hunit : (0 : ℚ) < 2 ^ m.exponent := by positivity
  have hle := amount_le h
  have hnext : (2 : ℚ) ^ (m.exponent + 53) = 2 ^ 53 * 2 ^ m.exponent := by
    rw [zpow_add₀ (by norm_num), mul_comm]
    rfl
  push_cast at hle
  linarith

theorem amount_lt {m : BinaryMagnitude} (h : IsCanonical m.significand m.exponent) :
    amount m < overflowBound := by
  have hexponent : (2 : ℚ) ^ m.exponent ≤ 2 ^ (971 : ℤ) :=
    zpow_le_zpow_right₀ (by norm_num) h.exponent_bounds.2
  rw [cast_overflowBound]
  calc amount m
      ≤ (2 ^ 53 - 1 : ℕ) * 2 ^ m.exponent := amount_le h
    _ ≤ (2 ^ 53 - 1 : ℕ) * 2 ^ (971 : ℤ) := by gcongr
    _ < ((2 ^ 53 - 1 : ℕ) + 1 / 2) * 2 ^ (971 : ℤ) := by
        gcongr
        norm_num

/-! ## Integers -/

theorem cast_of_wholeMagnitude {m : BinaryMagnitude} {n : Nat} (h : wholeMagnitude? m = some n) :
    (n : ℚ) = amount m := by
  rw [amount, two_zpow_eq_div]
  unfold wholeMagnitude? at h
  dsimp only at h
  split at h
  · rename_i hexponent
    cases h
    rw [Int.toNat_of_nonpos (Int.neg_nonpos_of_nonneg hexponent)]
    simp
  · split at h
    · rename_i hdvd
      cases h
      rw [Nat.pow_eq] at hdvd
      have hunit : 2 ^ (-m.exponent).toNat ≠ 0 := (Nat.two_pow_pos _).ne'
      have hzero : m.exponent.toNat = 0 := by omega
      rw [hzero, Nat.pow_eq,
        Nat.cast_div (Nat.dvd_of_mod_eq_zero hdvd) (Nat.cast_ne_zero.2 hunit)]
      simp [div_eq_mul_inv]
    · cases h

/-- An integer that is a double is no larger than the largest double. -/
theorem natAbs_lt_of_whole {x : Float} {n : Int} (h : whole? x = some n) :
    n.natAbs < overflowBound := by
  unfold whole? at h
  obtain ⟨i, hi, rfl⟩ := Option.map_eq_some_iff.1 h
  obtain ⟨k, hk, hcast⟩ := Option.bind_eq_some_iff.1 hi
  obtain rfl := Option.some.inj hcast
  obtain ⟨m, hm, hwhole⟩ := Option.bind_eq_some_iff.1 hk
  have hlt := amount_lt (IsCanonical.of_magnitude hm).1
  rw [← cast_of_wholeMagnitude hwhole, Nat.cast_lt] at hlt
  split
  · rwa [Int.natAbs_neg, Int.natAbs_natCast]
  · rwa [Int.natAbs_natCast]

theorem exists_of_ofInt {n : Int} (h : n.natAbs < overflowBound) : ∃ x, ofInt? n = some x := by
  have hsome : nearest? n.natAbs 1 ≠ none := by
    rw [Ne, nearest?_eq_none_iff Nat.one_pos, Nat.cast_one, div_one, Nat.cast_le]
    exact not_le.2 h
  obtain ⟨x, hx⟩ := Option.ne_none_iff_exists'.1 hsome
  exact ⟨signed (decide (n < 0)) x, by rw [ofInt?, hx]; rfl⟩

end Double
end Reckon

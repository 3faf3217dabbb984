import Reckon.Proofs.Double.Closest
import Reckon.Proofs.Double.Order
import Reckon.Proofs.Double.Sign

/-!
# Exact — numbers that rounding leaves as they are

A number of at most 53 binary digits is a double, as long as its unit is not too small and the
number itself is not too large.  Rounding does not change it:

* `Double.FitsSignificand` — numbers of at most 53 binary digits;
* `Double.rational?_of_nearest?`, `Double.rational?_of_ofInt?` — they are their own nearest doubles;
* `Double.whole?_eq_some_iff`, `Double.isZero_iff` — integers and zeros among the doubles, by the
  numbers that doubles stand for.
-/

namespace Reckon
namespace Double

/-! ## Numbers of 53 binary digits -/

/-- A number of at most 53 binary digits in a unit that doubles have. -/
def FitsSignificand (q : ℚ) : Prop :=
  ∃ (k : ℕ) (e : ℤ), k < 2 ^ 53 ∧ leastExponent ≤ e ∧ q = k * 2 ^ e

theorem fitsSignificand_amount {m : BinaryMagnitude} (h : IsCanonical m.significand m.exponent) :
    FitsSignificand (amount m) := by
  have hsignificand := h.significand_le
  exact ⟨m.significand, m.exponent, by omega, h.exponent_bounds.1, rfl⟩

/-- A number of units is as short as the one that bounds it. -/
theorem fitsSignificand_of_le {q : ℚ} {t : ℤ} {k : ℕ} {e : ℤ} (hq : q = t * 2 ^ e) (hnonneg : 0 ≤ q)
    (hle : q ≤ k * 2 ^ e) (hk : k < 2 ^ 53) (he : leastExponent ≤ e) : FitsSignificand q := by
  have hunit : (0 : ℚ) < 2 ^ e := by positivity
  rw [hq] at hnonneg hle
  have hlow : 0 ≤ t := Int.cast_nonneg_iff.1 (nonneg_of_mul_nonneg_left hnonneg hunit)
  have hhigh : (t : ℚ) ≤ k := le_of_mul_le_mul_right hle hunit
  obtain ⟨i, rfl⟩ := Int.eq_ofNat_of_zero_le hlow
  rw [Int.cast_natCast, Nat.cast_le] at hhigh
  exact ⟨i, e, by omega, he, by rw [hq, Int.cast_natCast]⟩

/-- In the unit in its last place a short number is a whole number. -/
theorem FitsSignificand.exists_units {n : ℕ} (h : FitsSignificand n) (hn : n ≠ 0) :
    ∃ j : ℕ, (n : ℚ) = j * 2 ^ unitExponent n 1 := by
  obtain ⟨k, e, hk, he, hq⟩ := h
  have hpos := Nat.pos_of_ne_zero hn
  obtain ⟨hlow, -⟩ := floorLog2_bounds hpos Nat.one_pos
  rw [Nat.cast_one, div_one] at hlow
  -- with 53 digits at most, the greatest one is no further up than that from the unit
  have hbelow : (2 : ℚ) ^ floorLog2 n 1 < 2 ^ (53 + e) := by
    refine hlow.trans_lt ?_
    rw [hq, zpow_add₀ (by norm_num)]
    have hcast : (k : ℚ) < 2 ^ (53 : ℤ) := by exact_mod_cast hk
    gcongr
  rw [zpow_lt_zpow_iff_right₀ (by norm_num)] at hbelow
  have hunit : unitExponent n 1 ≤ e := by
    unfold unitExponent
    omega
  obtain ⟨d, hd⟩ := Int.le.dest hunit
  refine ⟨k * 2 ^ d, ?_⟩
  rw [hq, ← hd, zpow_add₀ (by norm_num), zpow_natCast]
  push_cast
  ring

/-- Rounding leaves a short number as it is. -/
theorem rational?_of_nearest? {n : ℕ} (hfits : FitsSignificand n) {x : Float}
    (h : nearest? n 1 = some x) : isNegative x = false ∧ rational? x = some (n : ℚ) := by
  by_cases hn : n = 0
  · subst hn
    cases h
    have hmagnitude : magnitude? 0 = some ⟨0, leastExponent⟩ := by decide
    have hsign : isNegative 0 = false := by decide
    refine ⟨hsign, ?_⟩
    rw [rational?, hmagnitude, Option.map_some, hsign]
    simp [amount]
  · obtain ⟨hsign, m, hm, hamount, -⟩ := exists_magnitude_of_nearest? hn Nat.one_pos h
    obtain ⟨j, hj⟩ := hfits.exists_units hn
    have hunit : (2 : ℚ) ^ unitExponent n 1 ≠ 0 := by positivity
    have hscaled : (((n * Nat.pow 2 (-unitExponent n 1).toNat : ℕ) : ℚ)) /
        (1 * Nat.pow 2 (unitExponent n 1).toNat : ℕ) = j := by
      rw [scaled_eq, Nat.cast_one, div_one, div_eq_iff hunit, hj]
    -- the quotient is a whole number already, so there is nothing to be rounded
    have hround : significand n 1 = j := by
      have hden := unit_pos Nat.one_pos (unitExponent n 1)
      refine le_antisymm (roundHalfEven_le hden ?_) (le_roundHalfEven hden ?_)
      · rw [hscaled]
        linarith
      · rw [hscaled]
        linarith
    refine ⟨hsign, ?_⟩
    rw [rational?, hm, Option.map_some, hsign, hamount, hround, ← hj]
    rfl

/-! ## The other sign -/

open Float.Model (Format) in
/-- Negation sets the sign of a finite double that has none. -/
theorem toNat_toBits_neg {x : Float} (h : x.toBits.toNat < infiniteBits) :
    (-x).toBits.toNat = x.toBits.toNat + 2 ^ 63 := by
  have hinfinite : infiniteBits = 2047 * 2 ^ 52 := rfl
  have hsize : x.toBits.toNat + 2 ^ 63 < 2 ^ 64 := by omega
  have hnat : (UInt64.ofNat (x.toBits.toNat + 2 ^ 63)).toNat = x.toBits.toNat + 2 ^ 63 :=
    UInt64.toNat_ofNat_of_lt' hsize
  have hvalid : Format.binary64.Valid (UInt64.ofNat (x.toBits.toNat + 2 ^ 63)).toBitVec := by
    refine ⟨fun hexponent _ => ?_⟩
    -- the exponent is not the greatest one
    have hbits := toNat_unpackExponent (UInt64.ofNat (x.toBits.toNat + 2 ^ 63)).toBitVec
    rw [hexponent] at hbits
    have hgreatest : 2047 =
        (UInt64.ofNat (x.toBits.toNat + 2 ^ 63)).toNat / 2 ^ 52 % 2 ^ 11 := hbits
    omega
  have htoBits := toBits_ofBits hvalid
  -- the double with these bits is the one with the sign bit cleared, negated
  have hsigned := signed_magnitude (Float.ofBits (UInt64.ofNat (x.toBits.toNat + 2 ^ 63)))
  have hnegative : isNegative (Float.ofBits (UInt64.ofNat (x.toBits.toNat + 2 ^ 63))) = true := by
    rw [isNegative, htoBits, hnat, decide_eq_true_eq, Nat.pow_eq]
    omega
  have hmagnitude : magnitudeBits (Float.ofBits (UInt64.ofNat (x.toBits.toNat + 2 ^ 63))) =
      x.toBits.toNat := by
    rw [magnitudeBits, htoBits, hnat, Nat.pow_eq]
    omega
  rw [hnegative, hmagnitude, UInt64.ofNat_toNat, ofBits_toBits, signed, if_pos rfl] at hsigned
  rw [hsigned, htoBits, hnat]

theorem rational?_neg {x : Float} {q : ℚ} (hsign : isNegative x = false)
    (h : rational? x = some q) :
    isNegative (-x) = true ∧ rational? (-x) = some (-q) := by
  obtain ⟨m, hm, hq⟩ := Option.map_eq_some_iff.1 h
  have hlow : x.toBits.toNat < 2 ^ 63 := not_le.1 (of_decide_eq_false hsign)
  have hbits : x.toBits.toNat < infiniteBits := by
    unfold magnitude? at hm
    dsimp only at hm
    rw [Nat.pow_eq, Nat.mod_eq_of_lt hlow] at hm
    by_contra hlarge
    rw [if_pos (not_lt.1 hlarge)] at hm
    cases hm
  have hneg := toNat_toBits_neg hbits
  have hnegative : isNegative (-x) = true := by
    rw [isNegative, hneg, decide_eq_true_eq, Nat.pow_eq]
    omega
  have hmagnitude : magnitude? (-x) = some m := by
    rw [← hm, magnitude?, magnitude?, hneg, Nat.pow_eq, Nat.add_mod_right]
  refine ⟨hnegative, ?_⟩
  rw [hsign] at hq
  rw [rational?, hmagnitude, Option.map_some, hnegative, ← hq]
  rfl

/-- The double nearest to a short integer is the integer, with its sign; that of zero is positive
zero. -/
theorem rational?_of_ofInt? {n : ℤ} (hfits : FitsSignificand n.natAbs) {x : Float}
    (h : ofInt? n = some x) : isNegative x = decide (n < 0) ∧ rational? x = some (n : ℚ) := by
  obtain ⟨y, hy, rfl⟩ := Option.map_eq_some_iff.1 h
  obtain ⟨hsign, hrational⟩ := rational?_of_nearest? hfits hy
  by_cases hn : n < 0
  · have habs : (n : ℚ) = -(n.natAbs : ℚ) := by
      rw [Nat.cast_natAbs, abs_of_neg hn, Int.cast_neg, neg_neg]
    rw [decide_eq_true hn, signed, if_pos rfl, habs]
    exact rational?_neg hsign hrational
  · have habs : (n : ℚ) = (n.natAbs : ℚ) := by
      rw [Nat.cast_natAbs, abs_of_nonneg (not_lt.1 hn)]
    rw [decide_eq_false hn, signed, if_neg Bool.false_ne_true, habs]
    exact ⟨hsign, hrational⟩

/-! ## Integers and zeros among the doubles -/

theorem wholeMagnitude?_eq_some_iff {m : BinaryMagnitude} {n : ℕ} :
    wholeMagnitude? m = some n ↔ amount m = n := by
  refine ⟨fun h => (cast_of_wholeMagnitude h).symm, fun h => ?_⟩
  rw [amount, two_zpow_eq_div] at h
  unfold wholeMagnitude?
  dsimp only
  simp only [Nat.pow_eq]
  split
  · rename_i hexponent
    rw [Int.toNat_of_nonpos (Int.neg_nonpos_of_nonneg hexponent), pow_zero, Nat.cast_one,
      div_one] at h
    exact congrArg some (by exact_mod_cast h)
  · rename_i hexponent
    have hzero : m.exponent.toNat = 0 := by omega
    have hunit : 0 < 2 ^ (-m.exponent).toNat := Nat.two_pow_pos _
    have hcast : ((2 ^ (-m.exponent).toNat : ℕ) : ℚ) ≠ 0 := Nat.cast_ne_zero.2 hunit.ne'
    rw [hzero, pow_zero, Nat.cast_one, mul_one_div, div_eq_iff hcast] at h
    have hproduct : m.significand = n * 2 ^ (-m.exponent).toNat := by exact_mod_cast h
    rw [hproduct, Nat.mul_mod_left, if_pos rfl, Nat.mul_div_cancel _ hunit]

theorem whole?_eq (x : Float) :
    whole? x = (magnitude? x).bind fun m =>
      (wholeMagnitude? m).map fun k : ℕ => if isNegative x then -(k : ℤ) else k := by
  unfold whole?
  cases magnitude? x with
  | none =>
    rfl
  | some m =>
    cases h : wholeMagnitude? m <;> simp [h]

/-- A double is a whole number if it stands for an integer. -/
theorem whole?_eq_some_iff {x : Float} {n : ℤ} :
    whole? x = some n ↔ rational? x = some (n : ℚ) := by
  rw [whole?_eq, rational?]
  cases magnitude? x with
  | none =>
    simp
  | some m =>
    have hnonneg : 0 ≤ amount m := by
      unfold amount
      positivity
    simp only [Option.bind_some, Option.map_some, Option.some.injEq, Option.map_eq_some_iff,
      wholeMagnitude?_eq_some_iff]
    -- the natural number behind an integer of either sign is its absolute value
    cases isNegative x with
    | true =>
      simp only [if_true]
      constructor
      · rintro ⟨k, hk, rfl⟩
        rw [hk, Int.cast_neg, Int.cast_natCast]
      · intro h
        have hle : n ≤ 0 := by
          rw [← Int.cast_nonpos (R := ℚ), ← h]
          exact neg_nonpos.2 hnonneg
        refine ⟨n.natAbs, ?_, by omega⟩
        rw [Nat.cast_natAbs, abs_of_nonpos hle, Int.cast_neg, ← h, neg_neg]
    | false =>
      simp only [Bool.false_eq_true, if_false]
      constructor
      · rintro ⟨k, hk, rfl⟩
        rw [hk, Int.cast_natCast]
      · intro h
        have hle : 0 ≤ n := by
          rw [← Int.cast_nonneg_iff (R := ℚ), ← h]
          exact hnonneg
        refine ⟨n.natAbs, ?_, by omega⟩
        rw [Nat.cast_natAbs, abs_of_nonneg hle, h]

/-- Only the bits of zero make up the magnitude zero. -/
theorem magnitudeBits_of_amount_eq_zero {x : Float} {m : BinaryMagnitude}
    (hm : magnitude? x = some m) (h : amount m = 0) : magnitudeBits x = 0 := by
  have hsignificand : m.significand = 0 := by
    have hunit : (2 : ℚ) ^ m.exponent ≠ 0 := by positivity
    exact Nat.cast_eq_zero.1 ((mul_eq_zero.1 h).resolve_right hunit)
  obtain ⟨hcanonical, hbits⟩ := IsCanonical.of_magnitude hm
  -- a significand that small is subnormal, so it has the least exponent
  have hleast : m.exponent = leastExponent := by
    rcases hcanonical with hsubnormal | hnormal
    · exact hsubnormal.2
    · omega
  rw [magnitudeBits, hbits, hsignificand, hleast, Int.sub_self]
  rfl

/-- The doubles that stand for zero are the two zeros. -/
theorem isZero_iff {x : Float} : IsZero x ↔ rational? x = some 0 := by
  constructor
  · intro h
    have hwhole : whole? x = some 0 := by
      rcases h with rfl | rfl <;> decide +kernel
    exact_mod_cast whole?_eq_some_iff.1 hwhole
  · intro h
    obtain ⟨m, hm, hamount⟩ := Option.map_eq_some_iff.1 h
    have hzero : amount m = 0 := by
      split at hamount
      · exact neg_eq_zero.1 hamount
      · exact hamount
    -- the two zeros differ in their signs only
    have hsigned := signed_magnitude x
    rw [magnitudeBits_of_amount_eq_zero hm hzero] at hsigned
    cases hsign : isNegative x with
    | true =>
      rw [hsign] at hsigned
      exact Or.inr (hsigned.symm.trans (by decide +kernel))
    | false =>
      rw [hsign] at hsigned
      exact Or.inl (hsigned.symm.trans (by decide +kernel))

end Double
end Reckon

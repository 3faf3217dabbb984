import Reckon.Proofs.Double.Magnitude
import Reckon.Proofs.Double.Sign

/-!
# Closest — the nearest double

Rounding works in the binade of a quotient: it takes the quotient in units of the last place to a
whole number.  That this yields the double nearest to the quotient among all of them, and of two
equally near ones the one with the even significand, takes two observations.  Doubles with larger
exponents are whole numbers of units as well; and those with smaller exponents lie below the binade
altogether, so its first number is nearer to the quotient.

* `Double.rational?` — the number that a finite double is;
* `Double.IsNearest` — a double is nearest to a number, ties going to the even significand;
* `Double.isNearest_of_nearest?` — so is the result of rounding a quotient.
-/

namespace Reckon
namespace Double

/-- The exact number that a finite double is. -/
def rational? (x : Float) : Option ℚ :=
  (magnitude? x).map fun m => if isNegative x then -amount m else amount m

/-- No finite double is nearer to the number `q`, and if another one is as near, then the significand
of this one is even. -/
structure IsNearest (x : Float) (q : ℚ) : Prop where
  isFinite : ∃ v, rational? x = some v
  isNegative : isNegative x = decide (q < 0)
  nearest : ∀ {v y w}, rational? x = some v → rational? y = some w → |v - q| ≤ |w - q|
  even : ∀ {m v y w}, magnitude? x = some m → rational? x = some v → rational? y = some w → w ≠ v →
    |v - q| = |w - q| → m.significand % 2 = 0

/-! ## Whole numbers -/

/-- Rounding moves a quotient by half a unit at most, and by half a unit only to an even number. -/
theorem abs_roundHalfEven_sub_le (num : Nat) {den : Nat} (hden : 0 < den) :
    |(roundHalfEven num den : ℚ) - num / den| ≤ 1 / 2 ∧
      (|(roundHalfEven num den : ℚ) - num / den| = 1 / 2 → roundHalfEven num den % 2 = 0) := by
  have hnonneg : (0 : ℚ) ≤ num / den := by positivity
  generalize hr : roundHalfEven num den = r
  have hupper : (num : ℚ) / den ≤ r + 1 / 2 := by
    by_contra hgt
    have hle : r + 1 ≤ roundHalfEven num den := by
      refine le_roundHalfEven hden ?_
      push_cast
      linarith
    omega
  have hlower : (r : ℚ) - 1 / 2 ≤ num / den := by
    by_contra hlt
    rcases Nat.eq_zero_or_pos r with rfl | hpos
    · push_cast at hlt
      linarith
    · have hle : roundHalfEven num den ≤ r - 1 := by
        refine roundHalfEven_le hden ?_
        rw [Nat.cast_sub hpos]
        push_cast
        linarith
      omega
  refine ⟨abs_le.2 ⟨by linarith, by linarith⟩, fun hhalf => ?_⟩
  rcases (abs_eq (by norm_num)).1 hhalf with habove | hbelow
  · -- half a unit below the result the other neighbour is odd
    have hpos : 0 < r := by
      rw [Nat.pos_iff_ne_zero]
      rintro rfl
      push_cast at habove
      linarith
    have hhalf' : (num : ℚ) / den = (r - 1 : ℕ) + 1 / 2 := by
      rw [Nat.cast_sub hpos]
      push_cast
      linarith
    have hround := roundHalfEven_half hden hhalf'
    omega
  · have hhalf' : (num : ℚ) / den = r + 1 / 2 := by linarith
    have hround := roundHalfEven_half hden hhalf'
    omega

/-- No whole number is nearer than one at half a unit. -/
theorem abs_sub_le_of_half {s j : ℤ} {q : ℚ} (hs : |(s : ℚ) - q| ≤ 1 / 2) :
    |(s : ℚ) - q| ≤ |(j : ℚ) - q| ∧
      (j ≠ s → |(s : ℚ) - q| = |(j : ℚ) - q| → |(s : ℚ) - q| = 1 / 2) := by
  by_cases hne : j = s
  · subst hne
    exact ⟨le_rfl, fun h => absurd rfl h⟩
  · have hone : (1 : ℚ) ≤ |(j : ℚ) - s| := by
      have habs : (1 : ℤ) ≤ |j - s| := Int.one_le_abs (sub_ne_zero.2 hne)
      exact_mod_cast habs
    have htriangle : |(j : ℚ) - s| ≤ |(j : ℚ) - q| + |(s : ℚ) - q| := by
      rw [abs_sub_comm (s : ℚ) q]
      exact abs_sub_le _ _ _
    exact ⟨by linarith, fun _ heq => by linarith⟩

/-! ## Magnitudes -/

open Float.Model (Format) in
theorem toNat_toBits_ofBits {bits : Nat} (h : bits < infiniteBits) :
    (Float.ofBits (UInt64.ofNat bits)).toBits.toNat = bits := by
  have hinfinite : infiniteBits = 2047 * 2 ^ 52 := rfl
  have hsize : bits < 2 ^ 64 := by omega
  have hnat : (UInt64.ofNat bits).toNat = bits := UInt64.toNat_ofNat_of_lt' hsize
  have hvalid : Format.binary64.Valid (UInt64.ofNat bits).toBitVec := by
    refine ⟨fun hexponent _ => ?_⟩
    -- the exponent is not the greatest one
    have hbits := toNat_unpackExponent (UInt64.ofNat bits).toBitVec
    rw [hexponent] at hbits
    have hgreatest : 2047 = (UInt64.ofNat bits).toNat / 2 ^ 52 % 2 ^ 11 := hbits
    omega
  rw [toBits_ofBits hvalid, hnat]

variable {offset s : Nat}

/-- What is read off the bits of a significand with an exponent; a significand that has become too
long has been carried. -/
theorem exists_magnitude_ofBits (hs : s ≤ 2 ^ 53) (hoffset : offset = 0 ∨ 2 ^ 52 ≤ s)
    (h : offset * fractionSize + s < infiniteBits) :
    ∃ m, magnitude? (Float.ofBits (UInt64.ofNat (offset * fractionSize + s))) = some m ∧
      amount m = s * 2 ^ (leastExponent + offset) ∧ (s % 2 = 0 → m.significand % 2 = 0) := by
  have hfraction : fractionSize = 2 ^ 52 := rfl
  have hinfinite : infiniteBits = 2047 * 2 ^ 52 := rfl
  have hmod : (offset * fractionSize + s) % Nat.pow 2 63 = offset * fractionSize + s :=
    Nat.mod_eq_of_lt (by rw [Nat.pow_eq]; omega)
  unfold magnitude?
  dsimp only
  rw [toNat_toBits_ofBits h, hmod, if_neg (not_le.2 h)]
  split
  · -- a subnormal number
    rename_i hlt
    have hzero : offset = 0 := by omega
    refine ⟨_, rfl, ?_, ?_⟩
    · rw [amount, hzero]
      simp
    · rw [hzero]
      simp
  · rename_i hge
    rcases hs.lt_or_eq with hlt | rfl
    · have hdiv : (offset * fractionSize + s) / fractionSize = offset + 1 := by
        rw [hfraction] at hge ⊢
        omega
      have hrest : fractionSize + (offset * fractionSize + s) % fractionSize = s := by
        rw [hfraction] at hge ⊢
        omega
      refine ⟨_, rfl, ?_, ?_⟩
      · rw [hdiv, hrest, Nat.add_sub_cancel]
        rfl
      · rw [hrest]
        exact id
    · have hdiv : (offset * fractionSize + 2 ^ 53) / fractionSize = offset + 2 := by
        rw [hfraction]
        omega
      have hrest : fractionSize + (offset * fractionSize + 2 ^ 53) % fractionSize = 2 ^ 52 := by
        rw [hfraction]
        omega
      refine ⟨_, rfl, ?_, ?_⟩
      · have hnext : (2 : ℚ) ^ (leastExponent + (offset + 1 : ℕ)) =
            2 * 2 ^ (leastExponent + offset) := by
          rw [Nat.cast_add, ← add_assoc, zpow_add₀ (by norm_num)]
          ring
        rw [hdiv, hrest, Nat.add_succ_sub_one, amount]
        dsimp only
        rw [hnext]
        push_cast
        ring
      · rw [hrest]
        intro _
        norm_num

/-- A double is a whole number of units, or it lies below the binade in which a number has 53 bits
in front of the unit. -/
theorem exists_units_or_lt {m : BinaryMagnitude} (h : IsCanonical m.significand m.exponent)
    (e : ℤ) :
    (∃ j : ℕ, amount m = j * 2 ^ e) ∨ leastExponent < e ∧ amount m < 2 ^ (e + 52) := by
  rcases le_or_gt e m.exponent with hle | hlt
  · obtain ⟨k, hk⟩ := Int.le.dest hle
    refine Or.inl ⟨m.significand * 2 ^ k, ?_⟩
    rw [amount, ← hk, zpow_add₀ (by norm_num), zpow_natCast]
    push_cast
    ring
  · refine Or.inr ⟨h.exponent_bounds.1.trans_lt hlt, ?_⟩
    calc amount m
        ≤ amount m + 2 ^ m.exponent / 2 := le_add_of_nonneg_right (by positivity)
      _ < 2 ^ (m.exponent + 53) := amount_add_half_lt h
      _ ≤ 2 ^ (e + 52) := zpow_le_zpow_right₀ (by norm_num) (by omega)

/-! ## Units of the last place -/

theorem abs_units_sub (j : ℚ) (q : ℚ) (e : ℤ) : |j * 2 ^ e - q| = |j - q / 2 ^ e| * 2 ^ e := by
  have hunit : (0 : ℚ) < 2 ^ e := by positivity
  have hscaled : j * 2 ^ e - q = (j - q / 2 ^ e) * 2 ^ e := by
    field_simp
  rw [hscaled, abs_mul, abs_of_pos hunit]

section Units

variable {s : ℕ} {q w : ℚ} {e : ℤ}

/-- A number of units within half a unit is as near as every other number of units. -/
theorem abs_units_sub_le (hs : |(s : ℚ) - q / 2 ^ e| ≤ 1 / 2) (j : ℤ) :
    |(s : ℚ) * 2 ^ e - q| ≤ |(j : ℚ) * 2 ^ e - q| ∧
      (j ≠ s → |(s : ℚ) * 2 ^ e - q| = |(j : ℚ) * 2 ^ e - q| → |(s : ℚ) - q / 2 ^ e| = 1 / 2) := by
  have hunit : (0 : ℚ) < 2 ^ e := by positivity
  obtain ⟨hle, hhalf⟩ := abs_sub_le_of_half (s := s) (j := j) hs
  rw [abs_units_sub, abs_units_sub]
  exact ⟨mul_le_mul_of_nonneg_right hle hunit.le,
    fun hne heq => hhalf hne (mul_right_cancel₀ hunit.ne' heq)⟩

/-- It is nearer than what lies below the binade. -/
theorem abs_units_sub_lt (hs : |(s : ℚ) - q / 2 ^ e| ≤ 1 / 2) (hq : 2 ^ (e + 52) ≤ q)
    (hw : w < 2 ^ (e + 52)) : |(s : ℚ) * 2 ^ e - q| < |w - q| := by
  have hfirst : ((2 ^ 52 : ℕ) : ℤ) * (2 : ℚ) ^ e = 2 ^ (e + 52) := by
    rw [zpow_add₀ (by norm_num), mul_comm]
    norm_num
  have hnear := (abs_units_sub_le hs (2 ^ 52 : ℕ)).1
  rw [hfirst] at hnear
  calc |(s : ℚ) * 2 ^ e - q|
      ≤ |2 ^ (e + 52) - q| := hnear
    _ = q - 2 ^ (e + 52) := by rw [abs_of_nonpos (by linarith), neg_sub]
    _ < q - w := by linarith
    _ = |w - q| := by rw [abs_of_nonpos (by linarith), neg_sub]

/-- So it is as near as every double, if `q` lies in the binade of the unit or in the subnormal
range. -/
theorem abs_units_sub_le_of_rational (hs : |(s : ℚ) - q / 2 ^ e| ≤ 1 / 2)
    (hq : leastExponent < e → 2 ^ (e + 52) ≤ q) {y : Float} (hw : rational? y = some w) :
    |(s : ℚ) * 2 ^ e - q| ≤ |w - q| ∧
      (w ≠ s * 2 ^ e → |(s : ℚ) * 2 ^ e - q| = |w - q| → |(s : ℚ) - q / 2 ^ e| = 1 / 2) := by
  obtain ⟨m, hm, hwm⟩ := Option.map_eq_some_iff.1 hw
  have hunits : ∀ j : ℤ, w = j * 2 ^ e → |(s : ℚ) * 2 ^ e - q| ≤ |w - q| ∧
      (w ≠ s * 2 ^ e → |(s : ℚ) * 2 ^ e - q| = |w - q| → |(s : ℚ) - q / 2 ^ e| = 1 / 2) := by
    rintro j rfl
    obtain ⟨hle, hhalf⟩ := abs_units_sub_le hs j
    refine ⟨hle, fun hne => hhalf ?_⟩
    rintro rfl
    exact hne rfl
  rcases exists_units_or_lt (IsCanonical.of_magnitude hm).1 e with ⟨j, hj⟩ | ⟨hleast, hlt⟩
  · rw [hj] at hwm
    split at hwm
    · refine hunits (-j) ?_
      rw [← hwm, Int.cast_neg, Int.cast_natCast, neg_mul]
    · exact hunits j hwm.symm
  · have hnonneg : 0 ≤ amount m := by
      rw [amount]
      positivity
    have hbelow : w < 2 ^ (e + 52) := by
      rw [← hwm]
      split <;> linarith
    have hstrict := abs_units_sub_lt hs (hq hleast) hbelow
    exact ⟨hstrict.le, fun _ heq => absurd heq hstrict.ne⟩

end Units

/-! ## Rounded quotients -/

/-- A double without a sign that no other double outdoes. -/
theorem isNearest_of_magnitude {x : Float} {m : BinaryMagnitude} {q : ℚ} (hm : magnitude? x = some m)
    (hsign : isNegative x = false) (hq : 0 ≤ q)
    (hnear : ∀ {y w}, rational? y = some w → |amount m - q| ≤ |w - q| ∧
      (w ≠ amount m → |amount m - q| = |w - q| → m.significand % 2 = 0)) : IsNearest x q := by
  have hrational : rational? x = some (amount m) := by
    rw [rational?, hm, hsign]
    rfl
  refine ⟨⟨amount m, hrational⟩, ?_, ?_, ?_⟩
  · rw [hsign, decide_eq_false (not_lt.2 hq)]
  · intro v y w hv hw
    obtain rfl := Option.some.inj (hrational.symm.trans hv)
    exact (hnear hw).1
  · intro m' v y w hm' hv hw
    obtain rfl := Option.some.inj (hrational.symm.trans hv)
    obtain rfl := Option.some.inj (hm.symm.trans hm')
    exact (hnear hw).2

theorem isNegative_ofBits {bits : Nat} (h : bits < infiniteBits) :
    isNegative (Float.ofBits (UInt64.ofNat bits)) = false := by
  have hinfinite : infiniteBits = 2047 * 2 ^ 52 := rfl
  rw [isNegative, toNat_toBits_ofBits h]
  refine decide_eq_false (not_le.2 ?_)
  rw [Nat.pow_eq]
  omega

theorem isNearest_zero : IsNearest 0 0 := by
  have hmagnitude : magnitude? 0 = some ⟨0, leastExponent⟩ := by decide
  refine isNearest_of_magnitude hmagnitude (by decide) le_rfl ?_
  intro y w _
  have hamount : amount ⟨0, leastExponent⟩ = 0 := by simp [amount]
  rw [hamount, sub_zero, abs_zero]
  exact ⟨abs_nonneg _, fun _ _ => rfl⟩

/-- The unit of a quotient is that of its binade, unless it is the least one. -/
theorem binade_le_of_unitExponent {num den : Nat} (hnum : num ≠ 0) (hden : 0 < den)
    (h : leastExponent < unitExponent num den) :
    (2 : ℚ) ^ (unitExponent num den + 52) ≤ num / den := by
  have hexponent : unitExponent num den = max (floorLog2 num den - 52) leastExponent := rfl
  have hlog : unitExponent num den + 52 = floorLog2 num den := by omega
  rw [hlog]
  exact (floorLog2_bounds (Nat.pos_of_ne_zero hnum) hden).1

/-- A rounded quotient is its rounded number of units. -/
theorem exists_magnitude_of_nearest? {num den : Nat} (hnum : num ≠ 0) (hden : 0 < den) {x : Float}
    (h : nearest? num den = some x) :
    isNegative x = false ∧ ∃ m, magnitude? x = some m ∧
      amount m = significand num den * 2 ^ unitExponent num den ∧
        (significand num den % 2 = 0 → m.significand % 2 = 0) := by
  have hpos := Nat.pos_of_ne_zero hnum
  rw [nearest?, if_neg hnum] at h
  dsimp only at h
  split at h
  · rename_i hfits
    obtain rfl := Option.some.inj h
    have hleast : leastExponent = -1074 := rfl
    have hexponent : unitExponent num den = max (floorLog2 num den - 52) leastExponent := rfl
    have hoffset : leastExponent + (unitExponent num den - leastExponent).toNat =
        unitExponent num den := by omega
    -- the significand has all its bits, or the unit is the least one
    have hfull : (unitExponent num den - leastExponent).toNat = 0 ∨
        2 ^ 52 ≤ significand num den := by
      by_cases hnormal : -1022 ≤ floorLog2 num den
      · exact Or.inr (le_significand hpos hden hnormal)
      · exact Or.inl (by omega)
    have hmagnitude := exists_magnitude_ofBits (significand_le hpos hden) hfull hfits
    rw [hoffset] at hmagnitude
    exact ⟨isNegative_ofBits hfits, hmagnitude⟩
  · cases h

/-- A quotient that is rounded to a double is rounded to the nearest one. -/
theorem isNearest_of_nearest? {num den : Nat} (hden : 0 < den) {x : Float}
    (h : nearest? num den = some x) : IsNearest x (num / den) := by
  by_cases hnum : num = 0
  · subst hnum
    rw [nearest?_zero] at h
    obtain rfl := Option.some.inj h
    rw [Nat.cast_zero, zero_div]
    exact isNearest_zero
  · obtain ⟨hsign, m, hm, hamount, heven⟩ := exists_magnitude_of_nearest? hnum hden h
    obtain ⟨hround, hhalf⟩ := abs_roundHalfEven_sub_le
      (num * Nat.pow 2 (-unitExponent num den).toNat) (unit_pos hden (unitExponent num den))
    rw [scaled_eq] at hround hhalf
    refine isNearest_of_magnitude hm hsign (by positivity) fun hw => ?_
    obtain ⟨hle, htie⟩ :=
      abs_units_sub_le_of_rational hround (binade_le_of_unitExponent hnum hden) hw
    rw [hamount]
    -- a tie of doubles is a tie of whole numbers of units
    exact ⟨hle, fun hne heq => heven (hhalf (htie hne heq))⟩

end Double
end Reckon

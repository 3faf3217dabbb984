import Mathlib
import Reckon.Numeric.Double

/-!
# Nearest — rounding quotients to doubles

A quotient is rounded in the binade that it lies in: the significand is the quotient in units of the
last place, rounded to a whole number.  This file says what that comes to in exact arithmetic:

* `Double.roundHalfEven_le`, `Double.le_roundHalfEven` — rounding stays within half a unit, and
  `Double.roundHalfEven_half` — a half goes to the even neighbour;
* `Double.floorLog2_le`, `Double.lt_floorLog2` — the binade of a quotient;
* `Double.nearest?_eq_none_iff` — the quotients that round beyond the largest double.
-/

namespace Reckon
namespace Double

/-! ## Rounding to whole numbers -/

section Rounding

variable {num den n : Nat}

theorem div_lt_half_iff (hden : 0 < den) :
    (num : ℚ) / den < n + 1 / 2 ↔ 2 * num < (2 * n + 1) * den := by
  have hpos : (0 : ℚ) < den := Nat.cast_pos.2 hden
  rw [div_lt_iff₀ hpos, ← Nat.cast_lt (α := ℚ)]
  push_cast
  constructor <;> intro h <;> linarith

theorem lt_div_half_iff (hden : 0 < den) :
    (n : ℚ) - 1 / 2 < num / den ↔ 2 * n * den < 2 * num + den := by
  have hpos : (0 : ℚ) < den := Nat.cast_pos.2 hden
  rw [lt_div_iff₀ hpos, ← Nat.cast_lt (α := ℚ)]
  push_cast
  constructor <;> intro h <;> linarith

theorem div_eq_half_iff (hden : 0 < den) :
    (num : ℚ) / den = n + 1 / 2 ↔ 2 * num = (2 * n + 1) * den := by
  have hpos : (0 : ℚ) < den := Nat.cast_pos.2 hden
  rw [div_eq_iff hpos.ne', ← Nat.cast_inj (R := ℚ)]
  push_cast
  constructor <;> intro h <;> linarith

theorem roundHalfEven_le_succ (num den : Nat) : roundHalfEven num den ≤ num / den + 1 := by
  unfold roundHalfEven
  dsimp only
  split
  · omega
  · split <;> omega

theorem div_le_roundHalfEven (num den : Nat) : num / den ≤ roundHalfEven num den := by
  unfold roundHalfEven
  dsimp only
  split
  · omega
  · split <;> omega

/-- Rounding does not go up by more than a half, or by a half either. -/
theorem roundHalfEven_le (hden : 0 < den) (h : (num : ℚ) / den < n + 1 / 2) :
    roundHalfEven num den ≤ n := by
  rw [div_lt_half_iff hden] at h
  have hdivision := Nat.div_add_mod num den
  have hfloor : num / den < n + 1 := by
    rw [Nat.div_lt_iff_lt_mul hden]
    linarith
  rcases Nat.lt_succ_iff_lt_or_eq.1 hfloor with hlt | heq
  · have hsucc := roundHalfEven_le_succ num den
    omega
  · -- the rest is less than a half
    have hrest : 2 * (num % den) < den := by
      rw [heq] at hdivision
      linarith
    rw [roundHalfEven, if_pos hrest]
    exact heq.le

/-- Rounding does not go down by a half or more, unless to an even number. -/
theorem le_roundHalfEven (hden : 0 < den) (h : (n : ℚ) - 1 / 2 < num / den) :
    n ≤ roundHalfEven num den := by
  rw [lt_div_half_iff hden] at h
  have hdivision := Nat.div_add_mod num den
  have hmod := Nat.mod_lt num hden
  rcases Nat.lt_or_ge (num / den) n with hlt | hge
  · -- the rest is more than a half
    have hfloor : n ≤ num / den + 1 := by
      by_contra hnot
      have hle : (num / den + 2) * den ≤ n * den := Nat.mul_le_mul_right den (by omega)
      linarith
    have heq : n = num / den + 1 := by omega
    have hrest : den < 2 * (num % den) := by
      rw [heq] at h
      linarith
    rw [roundHalfEven, if_neg (by omega), if_pos hrest]
    exact heq.le
  · exact hge.trans (div_le_roundHalfEven num den)

/-- A half goes to the even neighbour. -/
theorem roundHalfEven_half (hden : 0 < den) (h : (num : ℚ) / den = n + 1 / 2) :
    roundHalfEven num den = n + n % 2 := by
  rw [div_eq_half_iff hden] at h
  have hdivision := Nat.div_add_mod num den
  have hfloor : num / den = n := by
    refine Nat.div_eq_of_lt_le ?_ ?_
    · linarith
    · linarith
  have hrest : 2 * (num % den) = den := by
    rw [hfloor] at hdivision
    linarith
  rw [roundHalfEven, if_neg (by omega), if_neg (by omega), hfloor]

end Rounding

/-! ## Binades -/

/-- An integral power as a quotient of natural ones. -/
theorem zpow_eq_div (b : Nat) (e : ℤ) :
    (b : ℚ) ^ e = (b ^ e.toNat : ℕ) / (b ^ (-e).toNat : ℕ) := by
  rcases Int.le_total 0 e with he | he
  · obtain ⟨n, rfl⟩ := Int.eq_ofNat_of_zero_le he
    simp
  · obtain ⟨n, hn⟩ := Int.eq_ofNat_of_zero_le (Int.neg_nonneg_of_nonpos he)
    obtain rfl : e = -n := by omega
    simp

theorem two_zpow_eq_div (e : ℤ) : (2 : ℚ) ^ e = (2 ^ e.toNat : ℕ) / (2 ^ (-e).toNat : ℕ) := by
  have hpower := zpow_eq_div 2 e
  rwa [Nat.cast_ofNat] at hpower

theorem ten_zpow_eq_div (e : ℤ) : (10 : ℚ) ^ e = (10 ^ e.toNat : ℕ) / (10 ^ (-e).toNat : ℕ) := by
  have hpower := zpow_eq_div 10 e
  rwa [Nat.cast_ofNat] at hpower

/-- A quotient with the power of two that is taken out of it. -/
theorem scaled_eq (num den : Nat) (e : ℤ) :
    ((num * Nat.pow 2 (-e).toNat : ℕ) : ℚ) / (den * Nat.pow 2 e.toNat : ℕ) =
      (num / den : ℚ) / 2 ^ e := by
  simp only [Nat.pow_eq, Nat.cast_mul]
  rw [two_zpow_eq_div, div_div_div_eq]

theorem scaled_lt_iff {num den : Nat} (hden : 0 < den) (e : ℤ) :
    num * Nat.pow 2 (-e).toNat < den * Nat.pow 2 e.toNat ↔ (num / den : ℚ) < 2 ^ e := by
  have hpos : (0 : ℚ) < (den * Nat.pow 2 e.toNat : ℕ) := by
    have : 0 < Nat.pow 2 e.toNat := Nat.two_pow_pos _
    positivity
  have hpower : (0 : ℚ) < 2 ^ e := by positivity
  rw [← Nat.cast_lt (α := ℚ), ← div_lt_one hpos, scaled_eq, div_lt_one hpower]

section Binade

variable {num den : Nat}

theorem log2_bounds (hnum : 0 < num) (hden : 0 < den) :
    (2 : ℚ) ^ ((num.log2 : ℤ) - den.log2 - 1) ≤ num / den ∧
      (num / den : ℚ) < 2 ^ ((num.log2 : ℤ) - den.log2 + 1) := by
  have hnum' : (2 : ℚ) ^ (num.log2 : ℤ) ≤ num := by
    exact_mod_cast Nat.log2_self_le hnum.ne'
  have hnum'' : (num : ℚ) < 2 ^ ((num.log2 : ℤ) + 1) := by
    exact_mod_cast Nat.lt_log2_self
  have hden' : (2 : ℚ) ^ (den.log2 : ℤ) ≤ den := by
    exact_mod_cast Nat.log2_self_le hden.ne'
  have hden'' : (den : ℚ) < 2 ^ ((den.log2 : ℤ) + 1) := by
    exact_mod_cast Nat.lt_log2_self
  have hpos : (0 : ℚ) < den := Nat.cast_pos.2 hden
  constructor
  · rw [le_div_iff₀ hpos]
    calc (2 : ℚ) ^ ((num.log2 : ℤ) - den.log2 - 1) * den
        ≤ 2 ^ ((num.log2 : ℤ) - den.log2 - 1) * 2 ^ ((den.log2 : ℤ) + 1) := by gcongr
      _ = 2 ^ (num.log2 : ℤ) := by
          rw [← zpow_add₀ (by norm_num)]
          congr 1
          ring
      _ ≤ num := hnum'
  · rw [div_lt_iff₀ hpos]
    calc (num : ℚ)
        < 2 ^ ((num.log2 : ℤ) + 1) := hnum''
      _ = 2 ^ ((num.log2 : ℤ) - den.log2 + 1) * 2 ^ (den.log2 : ℤ) := by
          rw [← zpow_add₀ (by norm_num)]
          congr 1
          ring
      _ ≤ 2 ^ ((num.log2 : ℤ) - den.log2 + 1) * den := by gcongr

/-- The binade of a quotient reaches from the power of two below it to the next one. -/
theorem floorLog2_bounds (hnum : 0 < num) (hden : 0 < den) :
    (2 : ℚ) ^ floorLog2 num den ≤ num / den ∧ (num / den : ℚ) < 2 ^ (floorLog2 num den + 1) := by
  obtain ⟨hlow, hhigh⟩ := log2_bounds hnum hden
  unfold floorLog2
  dsimp only
  split
  · rename_i hlt
    rw [scaled_lt_iff hden] at hlt
    rw [sub_add_cancel]
    exact ⟨hlow, hlt⟩
  · rename_i hge
    rw [scaled_lt_iff hden, not_lt] at hge
    exact ⟨hge, hhigh⟩

theorem le_floorLog2_iff (hnum : 0 < num) (hden : 0 < den) {k : ℤ} :
    k ≤ floorLog2 num den ↔ (2 : ℚ) ^ k ≤ num / den := by
  obtain ⟨hlow, hhigh⟩ := floorLog2_bounds hnum hden
  constructor
  · intro h
    exact (zpow_le_zpow_right₀ (by norm_num) h).trans hlow
  · intro h
    have hlt : (2 : ℚ) ^ k < 2 ^ (floorLog2 num den + 1) := h.trans_lt hhigh
    rw [zpow_lt_zpow_iff_right₀ (by norm_num)] at hlt
    omega

/-- The exponent of the unit in the last place of a quotient. -/
def unitExponent (num den : Nat) : ℤ :=
  max (floorLog2 num den - 52) leastExponent

/-- The significand of a quotient: the quotient in units of the last place, rounded. -/
def significand (num den : Nat) : Nat :=
  roundHalfEven (num * Nat.pow 2 (-unitExponent num den).toNat)
    (den * Nat.pow 2 (unitExponent num den).toNat)

theorem nearestBits_eq (num den : Nat) :
    nearestBits num den =
      (unitExponent num den - leastExponent).toNat * fractionSize + significand num den := rfl

theorem unit_pos (hden : 0 < den) (e : ℤ) : 0 < den * Nat.pow 2 e.toNat :=
  Nat.mul_pos hden (Nat.two_pow_pos _)

/-- No significand has more than 53 bits, except for the first number that has 54. -/
theorem significand_le (hnum : 0 < num) (hden : 0 < den) : significand num den ≤ 2 ^ 53 := by
  refine roundHalfEven_le (unit_pos hden _) ?_
  rw [scaled_eq]
  have hunit : (0 : ℚ) < 2 ^ unitExponent num den := by positivity
  have hlt : (num / den : ℚ) / 2 ^ unitExponent num den < 2 ^ (53 : ℤ) := by
    rw [div_lt_iff₀ hunit, ← zpow_add₀ (by norm_num)]
    refine (floorLog2_bounds hnum hden).2.trans_le (zpow_le_zpow_right₀ (by norm_num) ?_)
    unfold unitExponent
    omega
  refine hlt.trans ?_
  norm_num

/-- Above the subnormal range every significand has 53 bits. -/
theorem le_significand (hnum : 0 < num) (hden : 0 < den) (h : -1022 ≤ floorLog2 num den) :
    2 ^ 52 ≤ significand num den := by
  refine le_roundHalfEven (unit_pos hden _) ?_
  rw [scaled_eq]
  have hexponent : unitExponent num den = floorLog2 num den - 52 := by
    have hleast : leastExponent = -1074 := rfl
    unfold unitExponent
    omega
  have hle : (2 : ℚ) ^ (52 : ℤ) ≤ num / den / 2 ^ unitExponent num den := by
    rw [le_div_iff₀ (by positivity), ← zpow_add₀ (by norm_num), hexponent, add_sub_cancel]
    exact (floorLog2_bounds hnum hden).1
  refine lt_of_lt_of_le ?_ hle
  norm_num

/-! ## The largest double -/

/-- The least number that rounds beyond the largest double. -/
def overflowBound : Nat :=
  2 ^ 1024 - 2 ^ 970

/-- It lies half a unit above the largest double. -/
theorem cast_overflowBound : (overflowBound : ℚ) = ((2 ^ 53 - 1 : ℕ) + 1 / 2) * 2 ^ (971 : ℤ) := by
  have hle : 2 ^ 970 ≤ 2 ^ 1024 := pow_le_pow_right₀ one_le_two (by norm_num)
  have hlarge : (2 : ℚ) ^ 1024 = 2 ^ 54 * 2 ^ 970 := by rw [← pow_add]
  have hunit : (2 : ℚ) ^ (971 : ℤ) = 2 * 2 ^ 970 :=
    (zpow_natCast 2 971).trans (pow_succ' 2 970)
  rw [overflowBound, Nat.cast_sub hle, Nat.cast_pow, Nat.cast_pow, Nat.cast_ofNat, hlarge, hunit]
  generalize (2 : ℚ) ^ 970 = unit
  push_cast
  ring

/-- In the last binade the largest significand is the last one that fits. -/
theorem significand_lt_iff (hden : 0 < den) (h : unitExponent num den = 971) :
    significand num den < 2 ^ 53 ↔ (num / den : ℚ) < overflowBound := by
  rw [cast_overflowBound, ← div_lt_iff₀ (by positivity), significand, h, ← scaled_eq]
  generalize num * Nat.pow 2 (-971 : ℤ).toNat = n
  have hpos : 0 < den * Nat.pow 2 (971 : ℤ).toNat := unit_pos hden 971
  generalize den * Nat.pow 2 (971 : ℤ).toNat = d at hpos
  constructor
  · intro hfits
    by_contra hge
    rcases (not_lt.1 hge).lt_or_eq with hmore | hhalf
    · have hcarry : 2 ^ 53 ≤ roundHalfEven n d := by
        refine le_roundHalfEven hpos (lt_of_le_of_lt ?_ hmore)
        norm_num
      omega
    · -- a half goes up, as the largest significand is odd
      rw [roundHalfEven_half hpos hhalf.symm] at hfits
      omega
  · intro hlt
    have hle := roundHalfEven_le hpos hlt
    omega

theorem nearestBits_lt_iff (hnum : 0 < num) (hden : 0 < den) :
    nearestBits num den < infiniteBits ↔ (num / den : ℚ) < overflowBound := by
  have hinfinite : infiniteBits = 2045 * fractionSize + 2 ^ 53 := rfl
  have hfraction : fractionSize = 2 ^ 52 := rfl
  have hleast : leastExponent = -1074 := rfl
  have hunit : unitExponent num den = max (floorLog2 num den - 52) leastExponent := rfl
  obtain ⟨hlow, hhigh⟩ := floorLog2_bounds hnum hden
  have hcarry := significand_le hnum hden
  rw [nearestBits_eq, hinfinite]
  rcases lt_trichotomy (floorLog2 num den) 1023 with hlt | heq | hgt
  · -- the unit is smaller, so that even a carry leaves the result in the range
    have hexponent : (unitExponent num den - leastExponent).toNat ≤ 2044 := by omega
    have hscaled := Nat.mul_le_mul_right fractionSize hexponent
    have hquotient : (num / den : ℚ) < 2 ^ (52 : ℤ) * 2 ^ (971 : ℤ) := by
      rw [← zpow_add₀ (by norm_num)]
      exact hhigh.trans_le (zpow_le_zpow_right₀ (by norm_num) (by omega))
    refine iff_of_true (by omega) (hquotient.trans_le ?_)
    rw [cast_overflowBound]
    gcongr
    norm_num
  · have hexponent : unitExponent num den = 971 := by omega
    have hoffset : (unitExponent num den - leastExponent).toNat = 2045 := by omega
    rw [← significand_lt_iff hden hexponent, hoffset]
    omega
  · -- the quotient itself is beyond the range
    have hexponent : 2046 ≤ (unitExponent num den - leastExponent).toNat := by omega
    have hscaled := Nat.mul_le_mul_right fractionSize hexponent
    have hfull := le_significand hnum hden (by omega)
    refine iff_of_false (by omega) (not_lt.2 ?_)
    calc (overflowBound : ℚ)
        ≤ 2 ^ (53 : ℤ) * 2 ^ (971 : ℤ) := by
          rw [cast_overflowBound]
          gcongr
          norm_num
      _ = 2 ^ (1024 : ℤ) := by
          rw [← zpow_add₀ (by norm_num)]
          rfl
      _ ≤ 2 ^ floorLog2 num den := zpow_le_zpow_right₀ (by norm_num) (by omega)
      _ ≤ num / den := hlow

/-- A quotient rounds beyond the largest double exactly if it is half a unit or more above it. -/
theorem nearest?_eq_none_iff (hden : 0 < den) :
    nearest? num den = none ↔ (overflowBound : ℚ) ≤ num / den := by
  rcases Nat.eq_zero_or_pos num with rfl | hnum
  · have hpos : (0 : ℚ) < overflowBound := by
      rw [cast_overflowBound]
      positivity
    rw [nearest?_zero, Nat.cast_zero, zero_div]
    exact iff_of_false (by simp) (not_le.2 hpos)
  · rw [← not_lt, ← nearestBits_lt_iff hnum hden, nearest?, if_neg hnum.ne']
    dsimp only
    split <;> simp [*]

end Binade

end Double
end Reckon

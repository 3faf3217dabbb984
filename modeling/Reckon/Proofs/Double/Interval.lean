import Reckon.Numeric.Decimal
import Reckon.Numeric.Shortest
import Reckon.Proofs.Double.Magnitude
import Reckon.Proofs.Double.Sign

/-!
# Interval — the decimal numbers that read back

The shortest digits of a double are looked for in an interval around it, of which every number is
rounded to the double again.  The ends of the interval lie half a unit away from the double, or a
quarter below a power of two, and they round to it exactly if its significand is even.

* `Shortest.Interval.Contains` — the interval in exact arithmetic, which `Interval.holds` decides;
* `Double.nearestBits_of_contains` — rounding a number of the interval;
* `Decimal.nearestMagnitude_of_contains` — so the interval reads back.
-/

namespace Reckon

/-! ## The interval in exact arithmetic -/

namespace Shortest

/-- The common denominator of the two sides of a comparison. -/
def denominator (t s : ℤ) : ℚ :=
  (10 ^ (-t).toNat : ℕ) * (2 ^ (-s).toNat : ℕ)

theorem denominator_pos (t s : ℤ) : 0 < denominator t s := by
  unfold denominator
  positivity

theorem cast_decimalSide (c : Nat) (t s : ℤ) :
    (decimalSide c t s : ℚ) = c * 10 ^ t * denominator t s := by
  have hpos : ((10 ^ (-t).toNat : ℕ) : ℚ) ≠ 0 := by positivity
  rw [decimalSide, denominator, Double.ten_zpow_eq_div, Nat.pow_eq, Nat.pow_eq, Nat.cast_mul,
    Nat.cast_mul]
  field_simp

theorem cast_binarySide (k : Nat) (t s : ℤ) :
    (binarySide k t s : ℚ) = k * 2 ^ s * denominator t s := by
  have hpos : ((2 ^ (-s).toNat : ℕ) : ℚ) ≠ 0 := by positivity
  rw [binarySide, denominator, Double.two_zpow_eq_div, Nat.pow_eq, Nat.pow_eq, Nat.cast_mul,
    Nat.cast_mul]
  field_simp

section Comparison

variable {c k : Nat} {t s : ℤ}

theorem decimalSide_le_iff :
    decimalSide c t s ≤ binarySide k t s ↔ (c * 10 ^ t : ℚ) ≤ k * 2 ^ s := by
  rw [← Nat.cast_le (α := ℚ), cast_decimalSide, cast_binarySide,
    mul_le_mul_iff_left₀ (denominator_pos t s)]

theorem binarySide_le_iff :
    binarySide k t s ≤ decimalSide c t s ↔ (k * 2 ^ s : ℚ) ≤ c * 10 ^ t := by
  rw [← Nat.cast_le (α := ℚ), cast_decimalSide, cast_binarySide,
    mul_le_mul_iff_left₀ (denominator_pos t s)]

theorem decimalSide_lt_iff :
    decimalSide c t s < binarySide k t s ↔ (c * 10 ^ t : ℚ) < k * 2 ^ s := by
  rw [← not_le, ← not_le, binarySide_le_iff]

theorem binarySide_lt_iff :
    binarySide k t s < decimalSide c t s ↔ (k * 2 ^ s : ℚ) < c * 10 ^ t := by
  rw [← not_le, ← not_le, decimalSide_le_iff]

end Comparison

/-- An interval with the unit `2 ^ s`; its ends belong to it if it is closed. -/
def Interval.Contains (i : Interval) (s : ℤ) (q : ℚ) : Prop :=
  if i.closed then i.lower * 2 ^ s ≤ q ∧ q ≤ i.upper * 2 ^ s
  else i.lower * 2 ^ s < q ∧ q < i.upper * 2 ^ s

theorem Interval.holds_iff {i : Interval} {c : Nat} {t s : ℤ} :
    i.holds c t s = true ↔ i.Contains s (c * 10 ^ t) := by
  unfold Interval.holds Interval.Contains
  dsimp only
  split
  · rw [Bool.and_eq_true, decide_eq_true_eq, decide_eq_true_eq, binarySide_le_iff,
      decimalSide_le_iff]
  · rw [Bool.and_eq_true, decide_eq_true_eq, decide_eq_true_eq, binarySide_lt_iff,
      decimalSide_lt_iff]

theorem Interval.Contains.le {i : Interval} {s : ℤ} {q : ℚ} (h : i.Contains s q) :
    i.lower * 2 ^ s ≤ q ∧ q ≤ i.upper * 2 ^ s := by
  unfold Interval.Contains at h
  split at h
  · exact h
  · exact ⟨h.1.le, h.2.le⟩

/-- What lies between the ends belongs to the interval, closed or not. -/
theorem Interval.contains_of_lt {i : Interval} {s : ℤ} {q : ℚ} (hlow : i.lower * 2 ^ s < q)
    (hhigh : q < i.upper * 2 ^ s) : i.Contains s q := by
  unfold Interval.Contains
  split
  · exact ⟨hlow.le, hhigh.le⟩
  · exact ⟨hlow, hhigh⟩

end Shortest

/-! ## Rounding in the interval -/

namespace Double

open Shortest

/-- A quotient within half a unit of a number rounds to it, and a half does if the number is
even. -/
theorem roundHalfEven_eq {num den n : Nat} (hden : 0 < den) (hn : 0 < n)
    (hlow : (n : ℚ) - 1 / 2 ≤ num / den) (hhigh : (num : ℚ) / den ≤ n + 1 / 2)
    (hopen : n % 2 ≠ 0 → (n : ℚ) - 1 / 2 < num / den ∧ (num : ℚ) / den < n + 1 / 2) :
    roundHalfEven num den = n := by
  rcases hlow.lt_or_eq with hlow | hlow
  · rcases hhigh.lt_or_eq with hhigh | hhigh
    · exact le_antisymm (roundHalfEven_le hden hhigh) (le_roundHalfEven hden hlow)
    · have heven : n % 2 = 0 := by
        by_contra hodd
        exact absurd hhigh (hopen hodd).2.ne
      rw [roundHalfEven_half hden hhigh, heven, Nat.add_zero]
  · -- half a unit below an even number the neighbour is odd
    have heven : n % 2 = 0 := by
      by_contra hodd
      exact absurd hlow (hopen hodd).1.ne
    have hhalf : (num : ℚ) / den = (n - 1 : ℕ) + 1 / 2 := by
      rw [← hlow, Nat.cast_sub hn]
      push_cast
      ring
    rw [roundHalfEven_half hden hhalf]
    omega

variable {m : BinaryMagnitude} {num den : Nat}

/-! ### The ends of the interval -/

theorem zpow_sub_two (e : ℤ) : (2 : ℚ) ^ (e - 2) = 2 ^ e / 4 := by
  rw [zpow_sub₀ (by norm_num)]
  norm_num

theorem middle_interval (m : BinaryMagnitude) :
    ((interval m).middle : ℚ) * 2 ^ (m.exponent - 2) = amount m := by
  have hmiddle : (interval m).middle = 4 * m.significand := rfl
  rw [hmiddle, amount, zpow_sub_two]
  push_cast
  ring

theorem upper_interval (m : BinaryMagnitude) :
    ((interval m).upper : ℚ) * 2 ^ (m.exponent - 2) = amount m + 2 ^ m.exponent / 2 := by
  have hupper : (interval m).upper = 4 * m.significand + 2 := rfl
  rw [hupper, amount, zpow_sub_two]
  push_cast
  ring

/-- The lower end lies half a unit below the double, or a quarter if the double is a power of
two. -/
theorem lower_interval (hpos : 0 < m.significand) :
    (¬(m.significand = fractionSize ∧ leastExponent < m.exponent) ∧
        ((interval m).lower : ℚ) * 2 ^ (m.exponent - 2) = amount m - 2 ^ m.exponent / 2) ∨
      (m.significand = fractionSize ∧ leastExponent < m.exponent) ∧
        ((interval m).lower : ℚ) * 2 ^ (m.exponent - 2) = amount m - 2 ^ m.exponent / 4 := by
  rw [amount, zpow_sub_two]
  by_cases hpower : m.significand = fractionSize ∧ leastExponent < m.exponent
  · have hlower : (interval m).lower = 4 * m.significand - 1 := if_pos hpower
    refine Or.inr ⟨hpower, ?_⟩
    rw [hlower, Nat.cast_sub (by omega)]
    push_cast
    ring
  · have hlower : (interval m).lower = 4 * m.significand - 2 := if_neg hpower
    refine Or.inl ⟨hpower, ?_⟩
    rw [hlower, Nat.cast_sub (by omega)]
    push_cast
    ring

theorem le_lower_interval (hpos : 0 < m.significand) :
    amount m - 2 ^ m.exponent / 2 ≤ (interval m).lower * 2 ^ (m.exponent - 2) := by
  have hunit : (0 : ℚ) < 2 ^ m.exponent := by positivity
  rcases lower_interval hpos with ⟨-, hlower⟩ | ⟨-, hlower⟩
  · exact hlower.ge
  · rw [hlower]
    linarith

/-! ### Rounding to the middle -/

/-- A number of the interval is at most half a unit away from the double. -/
theorem near_of_contains {q : ℚ} (hpos : 0 < m.significand)
    (h : (interval m).Contains (m.exponent - 2) q) :
    amount m - 2 ^ m.exponent / 2 ≤ q ∧ q ≤ amount m + 2 ^ m.exponent / 2 := by
  obtain ⟨hlow, hhigh⟩ := h.le
  rw [upper_interval] at hhigh
  exact ⟨(le_lower_interval hpos).trans hlow, hhigh⟩

/-- The ends themselves belong to the interval only if the significand is even. -/
theorem strictly_near_of_contains {q : ℚ} (hpos : 0 < m.significand) (hodd : m.significand % 2 ≠ 0)
    (h : (interval m).Contains (m.exponent - 2) q) :
    amount m - 2 ^ m.exponent / 2 < q ∧ q < amount m + 2 ^ m.exponent / 2 := by
  have hclosed : ¬(interval m).closed = true := by simpa [interval] using hodd
  rw [Interval.Contains, if_neg hclosed, upper_interval] at h
  exact ⟨(le_lower_interval hpos).trans_lt h.1, h.2⟩

/-- The numbers of the interval in units of the last place. -/
theorem scaled_of_contains {q : ℚ} (hpos : 0 < m.significand)
    (h : (interval m).Contains (m.exponent - 2) q) :
    (m.significand : ℚ) - 1 / 2 ≤ q / 2 ^ m.exponent ∧
      q / 2 ^ m.exponent ≤ m.significand + 1 / 2 ∧
      (m.significand % 2 ≠ 0 → (m.significand : ℚ) - 1 / 2 < q / 2 ^ m.exponent ∧
        q / 2 ^ m.exponent < m.significand + 1 / 2) := by
  have hunit : (0 : ℚ) < 2 ^ m.exponent := by positivity
  have hamount : amount m = m.significand * 2 ^ m.exponent := rfl
  obtain ⟨hlow, hhigh⟩ := near_of_contains hpos h
  refine ⟨?_, ?_, ?_⟩
  · rw [le_div_iff₀ hunit]
    linarith
  · rw [div_le_iff₀ hunit]
    linarith
  · intro hodd
    obtain ⟨hlow, hhigh⟩ := strictly_near_of_contains hpos hodd h
    rw [lt_div_iff₀ hunit, div_lt_iff₀ hunit]
    constructor <;> linarith

/-- The binade of a number of the interval, as far as it does not begin with the number itself. -/
theorem floorLog2_of_contains (hcanonical : IsCanonical m.significand m.exponent)
    (hpos : 0 < m.significand) (hnum : 0 < num) (hden : 0 < den)
    (h : (interval m).Contains (m.exponent - 2) (num / den)) :
    floorLog2 num den ≤ m.exponent + 52 ∧
      (2 ^ 52 < m.significand → m.exponent + 52 ≤ floorLog2 num den) ∧
      (m.significand = 2 ^ 52 → m.exponent + 51 ≤ floorLog2 num den) := by
  have hunit : (0 : ℚ) < 2 ^ m.exponent := by positivity
  have hamount : amount m = m.significand * 2 ^ m.exponent := rfl
  obtain ⟨hlow, hhigh⟩ := near_of_contains hpos h
  refine ⟨?_, ?_, ?_⟩
  · have hlt : (2 : ℚ) ^ floorLog2 num den < 2 ^ (m.exponent + 53) := by
      calc (2 : ℚ) ^ floorLog2 num den
          ≤ num / den := (floorLog2_bounds hnum hden).1
        _ ≤ amount m + 2 ^ m.exponent / 2 := hhigh
        _ < 2 ^ (m.exponent + 53) := amount_add_half_lt hcanonical
    rw [zpow_lt_zpow_iff_right₀ (by norm_num)] at hlt
    omega
  · intro hlarge
    have hlarge' : ((2 ^ 52 + 1 : ℕ) : ℚ) ≤ m.significand := Nat.cast_le.2 hlarge
    rw [le_floorLog2_iff hnum hden, add_comm, zpow_add₀ (by norm_num)]
    refine le_trans ?_ hlow
    have hleast : ((2 ^ 52 + 1 : ℕ) : ℚ) * 2 ^ m.exponent ≤ amount m := by
      rw [hamount]
      gcongr
    push_cast at hleast
    norm_num at hleast ⊢
    linarith
  · intro hpower
    rw [le_floorLog2_iff hnum hden, add_comm, zpow_add₀ (by norm_num)]
    refine le_trans ?_ hlow
    rw [hamount, hpower]
    norm_num
    linarith

/-- In the binade below a power of two the units are half as large, and the lower end lies half of
such a unit away. -/
theorem significand_below_power (hpower : m.significand = fractionSize)
    (hexponent : leastExponent < m.exponent) (hden : 0 < den)
    (hbelow : (num / den : ℚ) < 2 ^ (m.exponent + 52))
    (hhalf : unitExponent num den = m.exponent - 1)
    (h : (interval m).Contains (m.exponent - 2) (num / den)) : significand num den = 2 ^ 53 := by
  have hunit : (0 : ℚ) < 2 ^ (m.exponent - 1) := by positivity
  have htwice : (2 : ℚ) ^ m.exponent = 2 * 2 ^ (m.exponent - 1) := by
    rw [zpow_sub₀ (by norm_num), zpow_one]
    ring
  have hamount : amount m = 2 ^ 52 * 2 ^ m.exponent := by
    rw [amount, hpower, fractionSize]
    norm_num
  have hbinade : (2 : ℚ) ^ (m.exponent + 52) = amount m := by
    rw [hamount, zpow_add₀ (by norm_num), mul_comm]
    rfl
  have hlow : amount m - 2 ^ m.exponent / 4 ≤ num / den := by
    have hfraction : 0 < m.significand := by
      rw [hpower]
      decide
    rcases lower_interval hfraction with ⟨hnot, -⟩ | ⟨-, hlower⟩
    · exact absurd ⟨hpower, hexponent⟩ hnot
    · rw [← hlower]
      exact h.le.1
  rw [hbinade] at hbelow
  rw [hamount, htwice] at hlow hbelow
  rw [significand, hhalf]
  refine roundHalfEven_eq (unit_pos hden _) (by norm_num) ?_ ?_ (fun h => absurd rfl h)
  · rw [scaled_eq, le_div_iff₀ hunit]
    push_cast
    linarith
  · rw [scaled_eq, div_le_iff₀ hunit]
    push_cast
    linarith

/-- A quotient in the interval of a double rounds to the bits of the double. -/
theorem nearestBits_of_contains (hcanonical : IsCanonical m.significand m.exponent)
    (hpos : 0 < m.significand) (hnum : 0 < num) (hden : 0 < den)
    (h : (interval m).Contains (m.exponent - 2) (num / den)) :
    nearestBits num den = (m.exponent - leastExponent).toNat * fractionSize + m.significand := by
  have hfraction : fractionSize = 2 ^ 52 := rfl
  have hleast : leastExponent = -1074 := rfl
  have hunit : unitExponent num den = max (floorLog2 num den - 52) leastExponent := rfl
  obtain ⟨hlow, hhigh, hopen⟩ := scaled_of_contains hpos h
  obtain ⟨hmost, hnormal, hpower⟩ := floorLog2_of_contains hcanonical hpos hnum hden h
  rw [nearestBits_eq]
  rcases eq_or_ne (unitExponent num den) m.exponent with hsame | hdiffer
  · -- the unit is that of the double
    have hround : significand num den = m.significand := by
      rw [significand, hsame]
      rw [← scaled_eq] at hlow hhigh hopen
      exact roundHalfEven_eq (unit_pos hden _) hpos hlow hhigh hopen
    rw [hround, hsame]
  · -- the unit is half as large: the quotient is in the binade below a power of two
    have hsignificand : m.significand = 2 ^ 52 := by
      rcases hcanonical with ⟨hsub, hexponent⟩ | ⟨hlower, -, hexponent, -⟩
      · omega
      · rcases hlower.lt_or_eq with hgt | heq
        · have hge := hnormal hgt
          omega
        · exact heq.symm
    have hge := hpower hsignificand
    have hexponent : leastExponent < m.exponent := by
      rcases hcanonical with h | h <;> omega
    have hhalf : unitExponent num den = m.exponent - 1 := by omega
    have hbelow : (num / den : ℚ) < 2 ^ (m.exponent + 52) :=
      (floorLog2_bounds hnum hden).2.trans_le (zpow_le_zpow_right₀ (by norm_num) (by omega))
    have hround : significand num den = 2 ^ 53 :=
      significand_below_power hsignificand hexponent hden hbelow hhalf h
    have hoffset : (m.exponent - leastExponent).toNat =
        (m.exponent - 1 - leastExponent).toNat + 1 := by omega
    rw [hround, hhalf, hoffset, hsignificand, hfraction]
    ring

/-- So its nearest double is the one with these bits. -/
theorem nearest?_of_contains (hcanonical : IsCanonical m.significand m.exponent)
    (hpos : 0 < m.significand) (hnum : 0 < num) (hden : 0 < den)
    (h : (interval m).Contains (m.exponent - 2) (num / den)) :
    nearest? num den = some (Float.ofBits (UInt64.ofNat
      ((m.exponent - leastExponent).toNat * fractionSize + m.significand))) := by
  have hfraction : fractionSize = 2 ^ 52 := rfl
  have hinfinite : infiniteBits = 2045 * fractionSize + 2 ^ 53 := rfl
  have hleast : leastExponent = -1074 := rfl
  have hexponent : (m.exponent - leastExponent).toNat ≤ 2045 := by
    rcases hcanonical with h | h <;> omega
  have hscaled := Nat.mul_le_mul_right fractionSize hexponent
  have hfits : nearestBits num den < infiniteBits := by
    rw [nearestBits_of_contains hcanonical hpos hnum hden h]
    rcases hcanonical with h | h <;> omega
  rw [nearest?, if_neg hnum.ne']
  dsimp only
  rw [if_pos hfits, nearestBits_of_contains hcanonical hpos hnum hden h]

/-- The numbers of the interval are neither too small for a double nor too large. -/
theorem bounds_of_contains {q : ℚ} (hcanonical : IsCanonical m.significand m.exponent)
    (hpos : 0 < m.significand) (h : (interval m).Contains (m.exponent - 2) q) :
    (2 : ℚ) ^ (-1075 : ℤ) ≤ q ∧ q < 2 ^ (1024 : ℤ) := by
  obtain ⟨hlow, hhigh⟩ := near_of_contains hpos h
  obtain ⟨hleast, hgreatest⟩ := hcanonical.exponent_bounds
  constructor
  · have hunit : (0 : ℚ) < 2 ^ m.exponent := by positivity
    have hone : (2 : ℚ) ^ m.exponent ≤ amount m := by
      have hpos' : ((1 : ℕ) : ℚ) ≤ m.significand := Nat.cast_le.2 hpos
      rw [amount]
      refine le_mul_of_one_le_left hunit.le ?_
      exact_mod_cast hpos'
    calc (2 : ℚ) ^ (-1075 : ℤ)
        ≤ 2 ^ (m.exponent - 1) := zpow_le_zpow_right₀ (by norm_num) (by omega)
      _ = 2 ^ m.exponent / 2 := by rw [zpow_sub₀ (by norm_num), zpow_one]
      _ ≤ amount m - 2 ^ m.exponent / 2 := by linarith
      _ ≤ q := hlow
  · calc q
        ≤ amount m + 2 ^ m.exponent / 2 := hhigh
      _ < 2 ^ (m.exponent + 53) := amount_add_half_lt hcanonical
      _ ≤ 2 ^ (1024 : ℤ) := zpow_le_zpow_right₀ (by norm_num) (by omega)

end Double

/-! ## Reading decimal numbers -/

namespace Decimal

open Double Shortest

/-- A decimal number that is not too small has a digit that counts. -/
theorem not_vanishes {c : Nat} {t : ℤ} (h : (2 : ℚ) ^ (-1075 : ℤ) ≤ c * 10 ^ t) :
    vanishes c t = false := by
  have hpos : c ≠ 0 := by
    rintro rfl
    rw [Nat.cast_zero, zero_mul] at h
    exact absurd h (not_le.2 (by positivity))
  refine Bool.eq_false_iff.2 ?_
  intro hvanishes
  have hsmall : t < -(c.log2 + 400 : ℕ) := by
    simpa [vanishes, hpos] using hvanishes
  have hlog : (c : ℚ) < 2 ^ ((c.log2 : ℤ) + 1) := by
    exact_mod_cast Nat.lt_log2_self
  -- ten is at least the third power of two
  have hten : (10 : ℚ) ^ t ≤ 2 ^ (3 * t) := by
    have hnonpos : 0 ≤ -t := by omega
    have hpower : (2 : ℚ) ^ (3 * t) = 8 ^ t := by
      rw [zpow_mul]
      norm_num
    rw [hpower, ← inv_le_inv₀ (by positivity) (by positivity), ← zpow_neg, ← zpow_neg]
    exact zpow_le_zpow_left₀ hnonpos (by norm_num) (by norm_num)
  have hlt : (2 : ℚ) ^ (-1075 : ℤ) < 2 ^ (((c.log2 : ℤ) + 1) + 3 * t) := by
    calc (2 : ℚ) ^ (-1075 : ℤ)
        ≤ c * 10 ^ t := h
      _ < 2 ^ ((c.log2 : ℤ) + 1) * 10 ^ t := by gcongr
      _ ≤ 2 ^ ((c.log2 : ℤ) + 1) * 2 ^ (3 * t) := by gcongr
      _ = 2 ^ (((c.log2 : ℤ) + 1) + 3 * t) := by rw [← zpow_add₀ (by norm_num)]
  rw [zpow_lt_zpow_iff_right₀ (by norm_num)] at hlt
  omega

/-- A decimal number that is not too large is not scaled beyond every double. -/
theorem not_exceeds {c : Nat} {t : ℤ} (hc : 0 < c) (h : (c * 10 ^ t : ℚ) < 2 ^ (1024 : ℤ)) :
    exceeds t = false := by
  refine Bool.eq_false_iff.2 ?_
  intro hexceeds
  have hlarge : 310 < t := by simpa [exceeds] using hexceeds
  have hone : ((1 : ℕ) : ℚ) ≤ c := Nat.cast_le.2 hc
  -- powers of the size of the bound itself are too large to be evaluated
  have hbound : (2 : ℚ) ^ (205 : ℕ) ≤ 10 ^ (62 : ℕ) := by norm_num
  have hgreat : (2 : ℚ) ^ (1024 : ℤ) ≤ c * 10 ^ t := by
    calc (2 : ℚ) ^ (1024 : ℤ)
        ≤ 2 ^ (((205 : ℕ) : ℤ) * (5 : ℕ)) := zpow_le_zpow_right₀ (by norm_num) (by norm_num)
      _ = ((2 : ℚ) ^ (205 : ℕ)) ^ (5 : ℕ) := by rw [zpow_mul, zpow_natCast, zpow_natCast]
      _ ≤ ((10 : ℚ) ^ (62 : ℕ)) ^ (5 : ℕ) := by gcongr
      _ = 10 ^ (((62 : ℕ) : ℤ) * (5 : ℕ)) := by rw [zpow_mul, zpow_natCast, zpow_natCast]
      _ ≤ 10 ^ t := zpow_le_zpow_right₀ (by norm_num) (by omega)
      _ ≤ c * 10 ^ t := by
          refine le_mul_of_one_le_left (by positivity) ?_
          exact_mod_cast hone
  exact absurd h (not_lt.2 hgreat)

/-- A decimal number in the interval of a double is read as the double. -/
theorem nearestMagnitude_of_contains {m : BinaryMagnitude} {c : Nat} {t : ℤ}
    (hcanonical : IsCanonical m.significand m.exponent) (hpos : 0 < m.significand)
    (h : (interval m).Contains (m.exponent - 2) (c * 10 ^ t)) :
    nearestMagnitude c t = Float.ofBits (UInt64.ofNat
      ((m.exponent - leastExponent).toNat * fractionSize + m.significand)) := by
  obtain ⟨hlow, hhigh⟩ := bounds_of_contains hcanonical hpos h
  have hc : 0 < c := by
    rw [Nat.pos_iff_ne_zero]
    rintro rfl
    rw [Nat.cast_zero, zero_mul] at hlow
    exact absurd hlow (not_le.2 (by positivity))
  have hnum : 0 < c * Nat.pow 10 t.toNat := Nat.mul_pos hc (Nat.pow_pos (by norm_num))
  have hden : 0 < Nat.pow 10 (-t).toNat := Nat.pow_pos (by norm_num)
  have hquotient : ((c * Nat.pow 10 t.toNat : ℕ) / (Nat.pow 10 (-t).toNat : ℕ) : ℚ) =
      c * 10 ^ t := by
    rw [ten_zpow_eq_div, Nat.pow_eq, Nat.pow_eq, Nat.cast_mul, mul_div_assoc]
  rw [← hquotient] at h
  rw [nearestMagnitude, not_vanishes hlow, not_exceeds hc hhigh,
    nearest?_of_contains hcanonical hpos hnum hden h]
  rfl

end Decimal

end Reckon

import Reckon.Proofs.Double.Bits

/-!
# Arithmetic — sums, differences and products that are exact

A few operations on doubles give the double that they should whatever the rounding does.

* `Double.mul_one`, `Double.one_mul` — one is neutral, also for zeros and for not-a-number;
* `Double.add_self` — a sum of a double with itself is its product with two, also where it
  overflows;
* `Double.sub_self` — a finite double minus itself is positive zero.

The first two rest on one fact about rounding: digits of zero behind a mantissa do not matter.
-/

namespace Reckon
namespace Double

open Float.Model (Format UnpackedFloat totalExponent)
open Float.Model.UnpackedFloat

/-! ## Operations on the numbers that doubles stand for -/

theorem add_eq_packed (x y : Float) :
    x + y = packed (.add Format.binary64 (unpacked x) (unpacked y)) := rfl

theorem sub_eq_packed (x y : Float) :
    x - y = packed (.sub Format.binary64 (unpacked x) (unpacked y)) := rfl

theorem mul_eq_packed (x y : Float) :
    x * y = packed (.mul Format.binary64 (unpacked x) (unpacked y)) := rfl

theorem unpacked_one : unpacked 1 = .finite .positive (2 ^ 52) (-52) (by decide) := by
  rfl

theorem unpacked_two : unpacked 2 = .finite .positive (2 ^ 52) (-51) (by decide) := by
  rfl

theorem packed_zero : packed (.zero .positive) = 0 := by
  decide +kernel

theorem mul_positive (s : Sign) : s * .positive = s := by
  cases s <;> rfl

theorem positive_mul (s : Sign) : .positive * s = s := by
  cases s <;> rfl

/-! ## Rounding -/

/-- The exponent that a number is rounded to. -/
abbrev target (m : Nat) (e : Int) : Int :=
  Format.binary64.targetExponent (totalExponent m e)

theorem target_eq (m : Nat) (e : Int) : target m e = max (m.log2 + e - 52) (-1074) := by
  have hbits : (Format.binary64.mantissaBits : Int) = 53 := rfl
  have hleast : Format.binary64.minExponent = -1074 := rfl
  simp only [target, Format.targetExponent, totalExponent, hbits, hleast]
  omega

theorem target_of_canonical {m : Nat} {e : Int} (hm : 0 < m) (h : IsCanonical m e) :
    target m e = e := by
  rw [target_eq]
  rcases h with ⟨hlt, rfl⟩ | ⟨hle, hlt, hlow, hhigh⟩
  · have hlog := log2_of_subnormal hm hlt
    omega
  · have hlog := log2_of_normal hle hlt
    omega

theorem log2_mul_two_pow {m : Nat} (hm : 0 < m) (k : Nat) : (m * 2 ^ k).log2 = m.log2 + k := by
  induction k with
  | zero =>
    rw [Nat.pow_zero, Nat.mul_one, Nat.add_zero]
  | succ k ih =>
    have hpos : m * 2 ^ k ≠ 0 := Nat.ne_of_gt (Nat.mul_pos hm (Nat.two_pow_pos k))
    have hdouble : m * 2 ^ (k + 1) = 2 * (m * 2 ^ k) := by ring
    rw [hdouble, Nat.log2_two_mul hpos, ih]
    omega

theorem target_mul_two_pow {m : Nat} (hm : 0 < m) (k : Nat) (e : Int) :
    target (m * 2 ^ k) (e - k) = target m e := by
  rw [target_eq, target_eq, log2_mul_two_pow hm]
  congr 1
  omega

/-- Digits of zero are shifted out without a trace. -/
theorem shiftRight_mul_two_pow (m k n : Nat) :
    ExtendedMantissa.mk (m * 2 ^ k) false false >>> (n + k) =
      ExtendedMantissa.mk m false false >>> n := by
  change Nat.repeat ExtendedMantissa.shiftRightOne (n + k) _ =
    Nat.repeat ExtendedMantissa.shiftRightOne n _
  -- the zeros go first, and each of them is shifted out of an even mantissa
  have hshift : ∀ j, Nat.repeat ExtendedMantissa.shiftRightOne j ⟨m * 2 ^ j, false, false⟩ =
      ⟨m, false, false⟩ := by
    intro j
    induction j generalizing m with
    | zero =>
      simp [Nat.repeat]
    | succ j ih =>
      have hdouble : m * 2 ^ (j + 1) = (m * 2) * 2 ^ j := by ring
      rw [Nat.repeat, hdouble, ih]
      simp [ExtendedMantissa.shiftRightOne]
  induction n with
  | zero =>
    rw [Nat.zero_add, hshift]
    rfl
  | succ n ih =>
    rw [Nat.add_right_comm, Nat.repeat, ih]
    rfl

theorem shiftToTargetExponent_scaled {m : Nat} {e : Int} (hm : 0 < m) (h : e ≤ target m e)
    (k : Nat) :
    shiftToTargetExponent Format.binary64 (m * 2 ^ k) (e - k) .exact =
      shiftToTargetExponent Format.binary64 m e .exact := by
  -- the target depends on the number only, and the way to it is longer by the zeros
  have htarget : Format.binary64.targetExponent (totalExponent (m * 2 ^ k) (e - k)) =
      Format.binary64.targetExponent (totalExponent m e) := target_mul_two_pow hm k e
  have hamount : (target m e - (e - k)).toNat = (target m e - e).toNat + k := by omega
  simp only [shiftToTargetExponent, shiftToExponent, htarget, hamount,
    ExtendedMantissa.ofMantissaAndAccuracy, shiftRight_mul_two_pow]
  refine Prod.ext rfl ?_
  change e - k + ((target m e - e).toNat + k : Nat) = e + (target m e - e).toNat
  omega

/-- Digits of zero behind a mantissa do not matter to the rounding. -/
theorem round_scaled (s : Sign) {m : Nat} {e : Int} (hm : 0 < m) (h : e ≤ target m e) (k : Nat) :
    roundWithAccuracy Format.binary64 s (m * 2 ^ k) (e - k) .exact =
      roundWithAccuracy Format.binary64 s m e .exact := by
  unfold roundWithAccuracy
  rw [shiftToTargetExponent_scaled hm h]

theorem shiftToTargetExponent_canonical {m : Nat} {e : Int} (hm : 0 < m) (h : IsCanonical m e) :
    shiftToTargetExponent Format.binary64 m e .exact = (⟨m, false, false⟩, e) := by
  have htarget : Format.binary64.targetExponent (totalExponent m e) = e := target_of_canonical hm h
  simp only [shiftToTargetExponent, shiftToExponent, htarget, ExtendedMantissa.ofMantissaAndAccuracy,
    Int.sub_self, Int.toNat_zero]
  exact Prod.ext rfl (Int.add_zero e)

theorem round_canonical (s : Sign) {m : Nat} {e : Int} (hm : 0 < m) (h : IsCanonical m e) :
    roundWithAccuracy Format.binary64 s m e .exact = .finite s m e hm := by
  have hrounded : (ExtendedMantissa.mk m false false).roundedMantissa = m := rfl
  -- a number at its target is not shifted, so nothing is lost
  unfold roundWithAccuracy
  simp only [shiftToTargetExponent_canonical hm h, hrounded]
  rw [dif_neg (Nat.ne_of_gt hm)]

/-! ## One -/

theorem mul_one (x : Float) : x * 1 = x := by
  rw [mul_eq_packed, unpacked_one]
  conv => rhs; rw [← packed_unpacked x]
  cases hx : unpacked x with
  | notANumber =>
    rfl
  | infinity s =>
    exact congrArg (fun s => packed (.infinity s)) (mul_positive s)
  | zero s =>
    exact congrArg (fun s => packed (.zero s)) (mul_positive s)
  | finite s m e hm =>
    have hcanonical := isCanonical_of_unpacked hx
    have htarget := target_of_canonical hm hcanonical
    have hround := round_scaled s hm (Int.le_of_eq htarget.symm) 52
    rw [round_canonical s hm hcanonical] at hround
    -- one is `2 ^ 52` with the exponent `-52`, so the product is `m` with 52 zeros behind it
    change packed (roundWithAccuracy Format.binary64 (s * .positive) (m * 2 ^ 52) (e + -52) .exact) =
      _
    rw [mul_positive, ← hround]
    rfl

theorem one_mul (x : Float) : 1 * x = x := by
  rw [mul_eq_packed, unpacked_one]
  conv => rhs; rw [← packed_unpacked x]
  cases hx : unpacked x with
  | notANumber =>
    rfl
  | infinity s =>
    exact congrArg (fun s => packed (.infinity s)) (positive_mul s)
  | zero s =>
    exact congrArg (fun s => packed (.zero s)) (positive_mul s)
  | finite s m e hm =>
    have hcanonical := isCanonical_of_unpacked hx
    have htarget := target_of_canonical hm hcanonical
    have hround := round_scaled s hm (Int.le_of_eq htarget.symm) 52
    rw [round_canonical s hm hcanonical] at hround
    change packed (roundWithAccuracy Format.binary64 (.positive * s) (2 ^ 52 * m) (-52 + e) .exact) =
      _
    rw [positive_mul, Nat.mul_comm, Int.add_comm, ← hround]
    rfl

/-! ## Twice the same -/

theorem le_target_double {m : Nat} {e : Int} (hm : 0 < m) (h : IsCanonical m e) :
    e ≤ target (2 * m) e := by
  have htarget := target_of_canonical hm h
  rw [target_eq] at htarget ⊢
  rw [Nat.log2_two_mul (Nat.ne_of_gt hm)]
  omega

/-- A sum of two equal numbers is rounded as their double. -/
theorem add_finite_self (s : Sign) {m : Nat} {e : Int} (hm : 0 < m) (h : IsCanonical m e) :
    UnpackedFloat.add Format.binary64 (.finite s m e hm) (.finite s m e hm) =
      roundWithAccuracy Format.binary64 s (2 * m) e .exact := by
  have hdecrease : decreaseExponent m e e = (m, e) := by
    simp [decreaseExponent]
  have hround : ∀ s, UnpackedFloat.round Format.binary64 s (2 * m) e =
      roundWithAccuracy Format.binary64 s (2 * m) e .exact := by
    intro s
    have hle : e ≤ Format.binary64.targetExponent (totalExponent (2 * m) e) := le_target_double hm h
    have hamount : (e - Format.binary64.targetExponent (totalExponent (2 * m) e)).toNat = 0 := by
      omega
    simp [UnpackedFloat.round, decreaseExponent, hamount]
  unfold UnpackedFloat.add
  -- the sign of the sum is told by a comparison with zero
  simp only [Int.min_self, hdecrease, UnpackedFloat.normalize]
  cases s with
  | positive =>
    have hcompare : compare (Sign.positive.apply m + Sign.positive.apply m) 0 = .gt := by
      rw [Int.compare_eq_gt]
      simp only [Sign.apply]
      omega
    have hmantissa : (Sign.positive.apply m + Sign.positive.apply m).toNat = 2 * m := by
      simp only [Sign.apply]
      omega
    rw [hcompare]
    simp only [hmantissa, hround]
  | negative =>
    have hcompare : compare (Sign.negative.apply m + Sign.negative.apply m) 0 = .lt := by
      rw [Int.compare_eq_lt]
      simp only [Sign.apply]
      omega
    have hmantissa : (-(Sign.negative.apply m + Sign.negative.apply m)).toNat = 2 * m := by
      simp only [Sign.apply]
      omega
    rw [hcompare]
    simp only [hmantissa, hround]

theorem add_self (x : Float) : x + x = x * 2 := by
  rw [add_eq_packed, mul_eq_packed, unpacked_two]
  cases hx : unpacked x with
  | notANumber =>
    rfl
  | infinity s =>
    cases s <;> rfl
  | zero s =>
    cases s <;> rfl
  | finite s m e hm =>
    have hcanonical := isCanonical_of_unpacked hx
    have hpos : 0 < 2 * m := by omega
    have hround := round_scaled s hpos (le_target_double hm hcanonical) 51
    -- the sum is rounded from `2 * m`, the product from the same with 51 zeros behind it
    have hmantissa : 2 * m * 2 ^ 51 = m * 2 ^ 52 := by ring
    rw [add_finite_self s hm hcanonical, ← hround, hmantissa]
    change _ = packed (roundWithAccuracy Format.binary64 (s * .positive) (m * 2 ^ 52) (e + -51) .exact)
    rw [mul_positive]
    rfl

/-! ## Differences -/

theorem sub_self {x : Float} (h : x.isFinite = true) : x - x = 0 := by
  have hfinite : (unpacked x).isFinite = true := h
  rw [sub_eq_packed, ← packed_zero]
  congr 1
  cases hx : unpacked x with
  | notANumber =>
    rw [hx] at hfinite
    cases hfinite
  | infinity s =>
    rw [hx] at hfinite
    cases hfinite
  | zero s =>
    cases s <;> rfl
  | finite s m e hm =>
    simp [UnpackedFloat.sub, decreaseExponent, UnpackedFloat.normalize]

end Double

end Reckon

import Reckon.Proofs.Double.Order

/-!
# Zero — calculations up to the signs of zeros

The two zeros are equal as numbers, and most operations cannot tell them apart: their results are
the same, or they are zeros themselves.

* `Double.unsigned` — a double without the sign of a zero;
* `Double.congr_of_zeros` — what has to be shown of an operation is what it makes of the two zeros;
* `Double.unsigned_add`, `Double.unsigned_div` and others — the operations that respect `unsigned`;
* `Double.unsigned_power` — the exception: a power of a zero with a negative odd exponent is an
  infinity with the sign of the zero.

A division by zero does not respect it, either, which is why it has a hypothesis.
-/

namespace Reckon
namespace Double

open Float.Model (Format UnpackedFloat)
open Float.Model.UnpackedFloat

/-! ## Doubles without the signs of zeros -/

/-- A double with a positive zero for either zero. -/
def unsigned (x : Float) : Float :=
  if IsZero x then 0 else x

theorem unsigned_of_isZero {x : Float} (h : IsZero x) : unsigned x = 0 := if_pos h

theorem eq_or_zeros_of_unsigned {x y : Float} (h : unsigned x = unsigned y) :
    x = y ∨ IsZero x ∧ IsZero y := by
  have hzero : IsZero 0 := Or.inl rfl
  unfold unsigned at h
  by_cases hx : IsZero x
  · by_cases hy : IsZero y
    · exact Or.inr ⟨hx, hy⟩
    · rw [if_pos hx, if_neg hy] at h
      exact absurd (h ▸ hzero) hy
  · by_cases hy : IsZero y
    · rw [if_neg hx, if_pos hy] at h
      exact absurd (h ▸ hzero) hx
    · rw [if_neg hx, if_neg hy] at h
      exact Or.inl h

/-- A number that is no zero is known. -/
theorem eq_of_unsigned {x y : Float} (h : unsigned x = unsigned y) (hx : (x == 0) = false) :
    x = y := by
  rcases eq_or_zeros_of_unsigned h with heq | ⟨rfl | rfl, _⟩
  · exact heq
  · exact absurd hx (by decide +kernel)
  · exact absurd hx (by decide +kernel)

theorem isZero_of_beq {x : Float} (h : (x == 0) = true) : IsZero x := by
  rcases eq_or_zeros_of_beq h with rfl | ⟨hx, _⟩
  · exact Or.inl rfl
  · exact hx

/-- What is the same for both zeros does not depend on the signs of zeros. -/
theorem congr_of_zeros {β : Type} {g : Float → β} (hg : g 0 = g (-0)) {x y : Float}
    (h : unsigned x = unsigned y) : g x = g y := by
  have hzero : ∀ z, IsZero z → g z = g 0 := by
    rintro z (rfl | rfl)
    · rfl
    · exact hg.symm
  rcases eq_or_zeros_of_unsigned h with rfl | ⟨hx, hy⟩
  · rfl
  · rw [hzero x hx, hzero y hy]

/-- The same for two numbers. -/
theorem congr_of_zeros₂ {β : Type} {g : Float → Float → β} (hleft : ∀ y, g 0 y = g (-0) y)
    (hright : ∀ x, g x 0 = g x (-0)) {x x' y y' : Float} (hx : unsigned x = unsigned x')
    (hy : unsigned y = unsigned y') : g x y = g x' y' := by
  have hfirst : g x y = g x' y := congr_of_zeros (g := fun z => g z y) (hleft y) hx
  have hsecond : g x' y = g x' y' := congr_of_zeros (g := g x') (hright x') hy
  exact hfirst.trans hsecond

/-! ## Unpacked numbers -/

/-- The same number, or two zeros. -/
inductive SameNumber : UnpackedFloat → UnpackedFloat → Prop where
  | refl (u : UnpackedFloat) : SameNumber u u
  | zeros (s t : Sign) : SameNumber (.zero s) (.zero t)

theorem unpacked_zero : unpacked 0 = .zero .positive := rfl

theorem unpacked_neg_zero : unpacked (-0) = .zero .negative := rfl

theorem SameNumber.unsigned_packed {u v : UnpackedFloat} (h : SameNumber u v) :
    unsigned (packed u) = unsigned (packed v) := by
  have hzero : ∀ s, unsigned (packed (.zero s)) = 0 := by
    intro s
    cases s <;> decide +kernel
  cases h with
  | refl _ =>
    rfl
  | zeros s t =>
    rw [hzero, hzero]

theorem sameNumber_add_left (v : UnpackedFloat) :
    SameNumber (.add Format.binary64 (.zero .positive) v)
      (.add Format.binary64 (.zero .negative) v) := by
  cases v with
  | notANumber | infinity _ | finite _ _ _ _ =>
    exact .refl _
  | zero s =>
    cases s <;> exact .zeros _ _

theorem sameNumber_add_right (u : UnpackedFloat) :
    SameNumber (.add Format.binary64 u (.zero .positive))
      (.add Format.binary64 u (.zero .negative)) := by
  cases u with
  | notANumber | infinity _ | finite _ _ _ _ =>
    exact .refl _
  | zero s =>
    cases s <;> exact .zeros _ _

theorem sameNumber_sub_left (v : UnpackedFloat) :
    SameNumber (.sub Format.binary64 (.zero .positive) v)
      (.sub Format.binary64 (.zero .negative) v) := by
  cases v with
  | notANumber | infinity _ | finite _ _ _ _ =>
    exact .refl _
  | zero s =>
    cases s <;> exact .zeros _ _

theorem sameNumber_sub_right (u : UnpackedFloat) :
    SameNumber (.sub Format.binary64 u (.zero .positive))
      (.sub Format.binary64 u (.zero .negative)) := by
  cases u with
  | notANumber | infinity _ | finite _ _ _ _ =>
    exact .refl _
  | zero s =>
    cases s <;> exact .zeros _ _

theorem sameNumber_mul_left (v : UnpackedFloat) :
    SameNumber (.mul Format.binary64 (.zero .positive) v)
      (.mul Format.binary64 (.zero .negative) v) := by
  cases v with
  | notANumber | infinity _ =>
    exact .refl _
  | zero _ | finite _ _ _ _ =>
    exact .zeros _ _

theorem sameNumber_mul_right (u : UnpackedFloat) :
    SameNumber (.mul Format.binary64 u (.zero .positive))
      (.mul Format.binary64 u (.zero .negative)) := by
  cases u with
  | notANumber | infinity _ =>
    exact .refl _
  | zero _ | finite _ _ _ _ =>
    exact .zeros _ _

/-- As a dividend; a divisor that is zero makes infinities, which differ. -/
theorem sameNumber_div_left (v : UnpackedFloat) :
    SameNumber (.div Format.binary64 (.zero .positive) v)
      (.div Format.binary64 (.zero .negative) v) := by
  cases v with
  | notANumber | zero _ =>
    exact .refl _
  | infinity _ | finite _ _ _ _ =>
    exact .zeros _ _

/-! ## Arithmetic -/

section

variable {x x' y y' : Float} (hx : unsigned x = unsigned x')

include hx

theorem unsigned_neg : unsigned (-x) = unsigned (-x') :=
  congr_of_zeros (g := fun x => unsigned (-x)) (by decide +kernel) hx

theorem unsigned_abs : unsigned x.abs = unsigned x'.abs :=
  congr_of_zeros (g := fun x => unsigned x.abs) (by decide +kernel) hx

theorem isInf_congr : x.isInf = x'.isInf :=
  congr_of_zeros (by decide +kernel) hx

theorem whole?_congr : whole? x = whole? x' :=
  congr_of_zeros (by decide +kernel) hx

/-- A double is a zero if it is equal to zero as a number. -/
theorem beq_zero_congr : (x == 0) = (x' == 0) :=
  congr_of_zeros (g := fun x => x == 0) (by decide +kernel) hx

variable (hy : unsigned y = unsigned y')

include hy

theorem unsigned_add : unsigned (x + y) = unsigned (x' + y') :=
  congr_of_zeros₂ (g := fun x y => unsigned (x + y))
    (fun y => (sameNumber_add_left (unpacked y)).unsigned_packed)
    (fun x => (sameNumber_add_right (unpacked x)).unsigned_packed) hx hy

theorem unsigned_sub : unsigned (x - y) = unsigned (x' - y') :=
  congr_of_zeros₂ (g := fun x y => unsigned (x - y))
    (fun y => (sameNumber_sub_left (unpacked y)).unsigned_packed)
    (fun x => (sameNumber_sub_right (unpacked x)).unsigned_packed) hx hy

theorem unsigned_mul : unsigned (x * y) = unsigned (x' * y') :=
  congr_of_zeros₂ (g := fun x y => unsigned (x * y))
    (fun y => (sameNumber_mul_left (unpacked y)).unsigned_packed)
    (fun x => (sameNumber_mul_right (unpacked x)).unsigned_packed) hx hy

theorem unsigned_div (hdivisor : (y == 0) = false) : unsigned (x / y) = unsigned (x' / y') := by
  obtain rfl := eq_of_unsigned hy hdivisor
  exact congr_of_zeros (g := fun x => unsigned (x / y))
    (sameNumber_div_left (unpacked y)).unsigned_packed hx

theorem lt_congr : x < y ↔ x' < y' := by
  have hzero : (0 : Float).isNaN = false := by decide +kernel
  have hnegative : (-0 : Float).isNaN = false := by decide +kernel
  have hleft : ∀ y, decide ((0 : Float) < y) = decide (-0 < y) := by
    intro y
    rw [decide_eq_decide, lt_iff, lt_iff, hzero, hnegative, unpacked_zero, unpacked_neg_zero]
    rfl
  have hright : ∀ x, decide (x < (0 : Float)) = decide (x < -0) := by
    intro x
    rw [decide_eq_decide, lt_iff, lt_iff, hzero, hnegative, unpacked_zero, unpacked_neg_zero]
    rfl
  exact decide_eq_decide.1 (congr_of_zeros₂ (g := fun x y => decide (x < y)) hleft hright hx hy)

end

/-! ## Circular functions -/

section

variable {x x' : Float} (hx : unsigned x = unsigned x')

include hx

theorem unsigned_sine : unsigned (sine x) = unsigned (sine x') :=
  congr_of_zeros (g := fun x => unsigned (sine x)) (by decide +kernel) hx

theorem unsigned_cosine : unsigned (cosine x) = unsigned (cosine x') :=
  congr_of_zeros (g := fun x => unsigned (cosine x)) (by decide +kernel) hx

theorem unsigned_tangent : unsigned (tangent x) = unsigned (tangent x') :=
  congr_of_zeros (g := fun x => unsigned (tangent x)) (by decide +kernel) hx

end

/-! ## Powers -/

/-- Bases and an exponent for which a power tells the two zeros apart: there is a pole, and the
exponent is odd. -/
structure OppositePoles (x x' y : Float) : Prop where
  isZero : IsZero x
  isZero' : IsZero x'
  ne : x ≠ x'
  negative : y < 0
  odd : isOdd y = true

theorem unsigned_powerOfZero {x x' : Float} (hx : IsZero x) (hx' : IsZero x') (y : Float) :
    unsigned (powerOfZero x y) = unsigned (powerOfZero x' y) ∨ OppositePoles x x' y := by
  by_cases hsame : x = x'
  · rw [hsame]
    exact Or.inl rfl
  · unfold powerOfZero
    by_cases hnegative : y < 0
    · rw [if_pos hnegative, if_pos hnegative]
      cases hodd : isOdd y with
      | true =>
        exact Or.inr ⟨hx, hx', hsame, hnegative, hodd⟩
      | false =>
        -- an even pole is positive infinity
        rw [Bool.and_false, Bool.and_false]
        exact Or.inl rfl
    · rw [if_neg hnegative, if_neg hnegative]
      refine Or.inl ?_
      split
      · rfl
      · split
        · rw [unsigned_of_isZero hx, unsigned_of_isZero hx']
        · rfl

/-- A power respects `unsigned`, except for odd poles. -/
theorem unsigned_power {x x' y y' : Float} (hx : unsigned x = unsigned x')
    (hy : unsigned y = unsigned y') :
    unsigned (power x y) = unsigned (power x' y') ∨ y = y' ∧ OppositePoles x x' y := by
  unfold power
  rw [← beq_zero_congr hx, ← beq_zero_congr hy]
  cases hexponent : y == 0 with
  | true =>
    exact Or.inl rfl
  | false =>
    obtain rfl := eq_of_unsigned hy hexponent
    cases hbase : x == 0 with
    | true =>
      have hzero : IsZero x := isZero_of_beq hbase
      have hzero' : IsZero x' := isZero_of_beq ((beq_zero_congr hx).symm.trans hbase)
      exact (unsigned_powerOfZero hzero hzero' y).imp id fun hpoles => ⟨rfl, hpoles⟩
    | false =>
      obtain rfl := eq_of_unsigned hx hbase
      exact Or.inl rfl

/-- At odd poles the two powers are the two infinities. -/
theorem power_of_oppositePoles {x x' y : Float} (h : OppositePoles x x' y) :
    power x y = -infinity ∧ power x' y = infinity ∨
      power x y = infinity ∧ power x' y = -infinity := by
  have hexponent : (y == 0) = false := by
    cases hzero : y == 0 with
    | false =>
      rfl
    | true =>
      have hnegative := h.negative
      rcases isZero_of_beq hzero with rfl | rfl
      · exact absurd hnegative (by decide +kernel)
      · exact absurd hnegative (by decide +kernel)
  have hpower : ∀ z, IsZero z → power z y = if isNegative z then -infinity else infinity := by
    intro z hz
    have hbase : (z == 0) = true := by
      rcases hz with rfl | rfl <;> decide +kernel
    rw [power, hexponent, hbase, powerOfZero, if_neg Bool.false_ne_true, if_pos rfl,
      if_pos h.negative, h.odd, Bool.and_true]
  rw [hpower x h.isZero, hpower x' h.isZero']
  have hpositive : isNegative 0 = false := by decide +kernel
  have hnegative : isNegative (-0) = true := by decide +kernel
  rcases h.isZero with rfl | rfl
  · rcases h.isZero' with rfl | rfl
    · exact absurd rfl h.ne
    · rw [hpositive, hnegative]
      exact Or.inr ⟨rfl, rfl⟩
  · rcases h.isZero' with rfl | rfl
    · rw [hpositive, hnegative]
      exact Or.inl ⟨rfl, rfl⟩
    · exact absurd rfl h.ne

end Double
end Reckon

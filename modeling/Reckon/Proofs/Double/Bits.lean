import Mathlib
import Reckon.Numeric.Double

/-!
# Bits — doubles and the numbers that they stand for

The arithmetic of doubles works on unpacked numbers: a sign, a natural mantissa and an exponent.
Nothing is lost when a double is unpacked, and what comes out is written in one way only:

* `Double.unpacked`, `Double.packed` — from doubles to numbers and back;
* `Double.IsCanonical` — the way in which a finite number comes out of the bits.
-/

namespace Reckon
namespace Double

open Float.Model (Format UnpackedFloat)
open Float.Model.UnpackedFloat

/-! ## Unpacking -/

/-- The number that a double stands for. -/
def unpacked (x : Float) : UnpackedFloat :=
  x.toModel.unpack

/-- The double that stands for a number. -/
def packed (u : UnpackedFloat) : Float :=
  .ofModel (.pack u)

theorem packed_unpacked (x : Float) : packed (unpacked x) = x := by
  have hvalid : Format.binary64.Valid x.toBits.toBitVec := x.toModel.valid
  have hpack : pack Format.binary64 (unpack Format.binary64 x.toBits.toBitVec) =
      x.toBits.toBitVec := pack_unpack_of_valid hvalid
  apply Float.toBits_inj.1
  exact UInt64.toBitVec_inj.1 hpack

/-! ## Mantissas of finite numbers -/

theorem toNat_implicit (v : BitVec 52) : (1#1 ++ v).toNat = 2 ^ 52 + v.toNat := by
  rw [BitVec.toNat_append, ← Nat.shiftLeft_add_eq_or_of_lt v.isLt]
  simp [Nat.shiftLeft_eq]

theorem log2_of_normal {m : Nat} (h : 2 ^ 52 ≤ m) (h' : m < 2 ^ 53) : m.log2 = 52 :=
  (Nat.log2_eq_iff (by omega)).2 ⟨h, h'⟩

theorem log2_of_subnormal {m : Nat} (hm : 0 < m) (h : m < 2 ^ 52) : m.log2 < 52 :=
  (Nat.log2_lt (by omega)).2 h

/-- The way to write a finite number that fits the bits. -/
def IsCanonical (m : Nat) (e : Int) : Prop :=
  (m < 2 ^ 52 ∧ e = -1074) ∨ (2 ^ 52 ≤ m ∧ m < 2 ^ 53 ∧ -1074 ≤ e ∧ e ≤ 971)

theorem IsCanonical.significand_le {m : Nat} {e : Int} (h : IsCanonical m e) : m ≤ 2 ^ 53 - 1 := by
  rcases h with h | h <;> omega

theorem IsCanonical.exponent_bounds {m : Nat} {e : Int} (h : IsCanonical m e) :
    -1074 ≤ e ∧ e ≤ 971 := by
  rcases h with h | h <;> omega

theorem isCanonical_of_unpack {b : BitVec Format.binary64.numBits} {s : Sign} {m : Nat} {e : Int}
    {hm : 0 < m} (h : unpack Format.binary64 b = .finite s m e hm) : IsCanonical m e := by
  have hmantissa : (unpackMantissa b).toNat < 2 ^ 52 := (unpackMantissa b).isLt
  have hexponent : (unpackExponent b).toNat < 2 ^ 11 := (unpackExponent b).isLt
  have hbias : (Format.binary64.exponentBias : Int) = 1023 := rfl
  unfold unpack at h
  dsimp only at h
  split at h
  · split at h <;> cases h
  · rename_i hinfinite
    split at h
    · rename_i hzero
      split at h
      · cases h
      · -- no implicit bit, and the exponent is the least one
        injection h with hs hm' he
        have he' : e = -1074 := by
          rw [← he, hzero]
          rfl
        exact Or.inl ⟨hm' ▸ hmantissa, he'⟩
    · -- the implicit bit leads, and the exponent is neither the least nor the greatest one
      rename_i hzero
      injection h with hs hm' he
      rw [toNat_implicit] at hm'
      rw [hbias] at he
      have hlow : (unpackExponent b).toNat ≠ 0 := fun h0 => hzero (BitVec.eq_of_toNat_eq h0)
      have hhigh : (unpackExponent b).toNat ≠ 2047 := fun h0 => hinfinite (BitVec.eq_of_toNat_eq h0)
      exact Or.inr (by omega)

theorem isCanonical_of_unpacked {x : Float} {s : Sign} {m : Nat} {e : Int} {hm : 0 < m}
    (h : unpacked x = .finite s m e hm) : IsCanonical m e :=
  isCanonical_of_unpack h

end Double

end Reckon

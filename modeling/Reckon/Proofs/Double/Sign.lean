import Reckon.Proofs.Double.Bits

/-!
# Sign — a double is a magnitude with a sign

The sign of a double is its highest bit, and negation changes this bit and no other.  So a double is
had back from its sign and from the bits of its magnitude, which is how doubles are read and
written.

* `Double.neg_unpack` — clearing the sign bit changes the sign of the number and nothing else;
* `Double.signed_magnitude` — a double from its two parts.
-/

namespace Reckon
namespace Double

open Float.Model (Format UnpackedFloat)
open Float.Model.UnpackedFloat

/-! ## Fields of the bits -/

section Fields

variable {b v : BitVec Format.binary64.numBits}

theorem toNat_unpackMantissa (b : BitVec Format.binary64.numBits) :
    (unpackMantissa b).toNat = b.toNat % 2 ^ 52 := by
  simp [unpackMantissa]

theorem toNat_unpackExponent (b : BitVec Format.binary64.numBits) :
    (unpackExponent b).toNat = b.toNat / 2 ^ 52 % 2 ^ 11 := by
  simp [unpackExponent, Nat.shiftRight_eq_div_pow]

theorem toNat_unpackSign (b : BitVec Format.binary64.numBits) :
    (unpackSign b).toNat = b.toNat / 2 ^ 63 % 2 := by
  simp [unpackSign, Nat.shiftRight_eq_div_pow]

theorem sign_of_lt (h : b.toNat < 2 ^ 63) : Sign.ofBitVec (unpackSign b) = .positive := by
  have hzero : unpackSign b = 0#1 := by
    apply BitVec.eq_of_toNat_eq
    rw [toNat_unpackSign, Nat.div_eq_of_lt h]
    rfl
  rw [Sign.ofBitVec, if_pos hzero]

theorem sign_of_ge (h : 2 ^ 63 ≤ v.toNat) : Sign.ofBitVec (unpackSign v) = .negative := by
  have hbound : v.toNat < 2 ^ 64 := v.isLt
  have hone : unpackSign v ≠ 0#1 := by
    intro hzero
    have hbit := congrArg BitVec.toNat hzero
    rw [toNat_unpackSign, BitVec.toNat_zero] at hbit
    omega
  rw [Sign.ofBitVec, if_neg hone]

/-- Bits with the sign bit cleared. -/
def IsCleared (b v : BitVec Format.binary64.numBits) : Prop :=
  b.toNat = v.toNat % 2 ^ 63

theorem IsCleared.unpackMantissa (h : IsCleared b v) :
    Float.Model.UnpackedFloat.unpackMantissa b = Float.Model.UnpackedFloat.unpackMantissa v := by
  apply BitVec.eq_of_toNat_eq
  rw [toNat_unpackMantissa, toNat_unpackMantissa, h]
  omega

theorem IsCleared.unpackExponent (h : IsCleared b v) :
    Float.Model.UnpackedFloat.unpackExponent b = Float.Model.UnpackedFloat.unpackExponent v := by
  apply BitVec.eq_of_toNat_eq
  rw [toNat_unpackExponent, toNat_unpackExponent, h]
  omega

theorem IsCleared.sign (h : IsCleared b v) : Sign.ofBitVec (unpackSign b) = .positive := by
  refine sign_of_lt ?_
  rw [h]
  exact Nat.mod_lt _ (by decide)

/-- The not-a-number that a double can be has no sign. -/
theorem not_undefined (hvalid : Format.binary64.Valid v) (h : 2 ^ 63 ≤ v.toNat)
    (hexponent : unpackExponent v = -1#_) : unpackMantissa v = 0#_ := by
  by_contra hmantissa
  have hcanonical := hvalid.eq_packedNaN hexponent hmantissa
  have hlt : (packedNaN Format.binary64).toNat < 2 ^ 63 := by decide
  rw [hcanonical] at h
  omega

theorem IsCleared.valid (h : IsCleared b v) (hvalid : Format.binary64.Valid v)
    (hnegative : 2 ^ 63 ≤ v.toNat) : Format.binary64.Valid b := by
  refine ⟨?_⟩
  intro hexponent hmantissa
  rw [h.unpackExponent] at hexponent
  rw [h.unpackMantissa] at hmantissa
  exact absurd (not_undefined hvalid hnegative hexponent) hmantissa

/-- Clearing the sign bit changes the sign of the number and nothing else. -/
theorem IsCleared.neg_unpack (h : IsCleared b v) (hvalid : Format.binary64.Valid v)
    (hnegative : 2 ^ 63 ≤ v.toNat) :
    neg (unpack Format.binary64 b) = unpack Format.binary64 v := by
  have hmantissa := h.unpackMantissa
  have hexponent := h.unpackExponent
  have hsign := h.sign
  have hsign' := sign_of_ge hnegative
  have hundefined := not_undefined hvalid hnegative
  unfold unpack
  simp only [hmantissa, hexponent, hsign, hsign']
  split
  · rename_i hinfinite
    rw [if_pos (hundefined hinfinite), if_pos (hundefined hinfinite)]
    rfl
  · split
    · split <;> rfl
    · rfl

end Fields

/-! ## Doubles -/

theorem ofBits_toBits (x : Float) : Float.ofBits x.toBits = x :=
  packed_unpacked x

theorem toBits_ofBits {n : UInt64} (h : Format.binary64.Valid n.toBitVec) :
    (Float.ofBits n).toBits = n := by
  have hpack : pack Format.binary64 (unpack Format.binary64 n.toBitVec) = n.toBitVec :=
    pack_unpack_of_valid h
  exact UInt64.toBitVec_inj.1 hpack

/-- The bits of a double without its sign. -/
def magnitudeBits (x : Float) : Nat :=
  x.toBits.toNat % Nat.pow 2 63

/-- A double is its magnitude with its sign. -/
theorem signed_magnitude (x : Float) :
    signed (isNegative x) (Float.ofBits (UInt64.ofNat (magnitudeBits x))) = x := by
  have hbound : x.toBits.toNat < 2 ^ 64 := x.toBits.toNat_lt
  have hmagnitude : magnitudeBits x = x.toBits.toNat % 2 ^ 63 := rfl
  have hsize : magnitudeBits x < 2 ^ 64 := by omega
  by_cases hnegative : 2 ^ 63 ≤ x.toBits.toNat
  · have hsign : isNegative x = true := decide_eq_true hnegative
    have hvalid : Format.binary64.Valid x.toBits.toBitVec := x.toModel.valid
    have hcleared : IsCleared (UInt64.ofNat (magnitudeBits x)).toBitVec x.toBits.toBitVec := by
      have hnat : (UInt64.ofNat (magnitudeBits x)).toNat = magnitudeBits x :=
        UInt64.toNat_ofNat_of_lt' hsize
      exact hnat
    -- the cleared bits are those of a double, since not-a-number has no sign to be cleared
    have hbits := toBits_ofBits (hcleared.valid hvalid hnegative)
    have hneg : neg (unpacked (Float.ofBits (UInt64.ofNat (magnitudeBits x)))) = unpacked x := by
      have hunpacked : unpacked (Float.ofBits (UInt64.ofNat (magnitudeBits x))) =
          unpack Format.binary64 (UInt64.ofNat (magnitudeBits x)).toBitVec :=
        congrArg (fun n : UInt64 => unpack Format.binary64 n.toBitVec) hbits
      rw [hunpacked]
      exact hcleared.neg_unpack hvalid hnegative
    rw [hsign, signed, if_pos rfl]
    exact (congrArg packed hneg).trans (packed_unpacked x)
  · have hsign : isNegative x = false := decide_eq_false hnegative
    have hsame : magnitudeBits x = x.toBits.toNat := Nat.mod_eq_of_lt (not_le.1 hnegative)
    rw [hsign, signed, if_neg (by decide), hsame, UInt64.ofNat_toNat]
    exact ofBits_toBits x

/-! ## Finite doubles -/

/-- The bits of a double. -/
def bitVector (x : Float) : BitVec Format.binary64.numBits :=
  x.toBits.toBitVec

/-- The exponent of a finite double is not the greatest one. -/
theorem unpackExponent_of_isFinite {x : Float} (h : x.isFinite = true) :
    unpackExponent (bitVector x) ≠ -1#_ := by
  intro hexponent
  have hfinite : (unpack Format.binary64 (bitVector x)).isFinite = true := h
  unfold unpack at hfinite
  simp only [if_pos hexponent] at hfinite
  split at hfinite <;> cases hfinite

/-- A finite double has a magnitude. -/
theorem exists_magnitude {x : Float} (h : x.isFinite = true) : ∃ m, magnitude? x = some m := by
  have hexponent := unpackExponent_of_isFinite h
  have hbits : (unpackExponent (bitVector x)).toNat =
      x.toBits.toNat / 2 ^ 52 % 2 ^ 11 := toNat_unpackExponent _
  have hgreatest : x.toBits.toNat / 2 ^ 52 % 2 ^ 11 ≠ 2047 := by
    intro heq
    exact hexponent (BitVec.eq_of_toNat_eq (hbits.trans heq))
  have hsmall : ¬infiniteBits ≤ x.toBits.toNat % Nat.pow 2 63 := by
    have hinfinite : infiniteBits = 2047 * 2 ^ 52 := rfl
    rw [hinfinite, Nat.pow_eq]
    clear hbits hexponent
    omega
  unfold magnitude?
  dsimp only
  rw [if_neg hsmall]
  split
  · exact ⟨_, rfl⟩
  · exact ⟨_, rfl⟩

theorem isNaN_of_isFinite {x : Float} (h : x.isFinite = true) : x.isNaN = false := by
  have hfinite : (unpacked x).isFinite = true := h
  have hnumber : x.isNaN = (unpacked x).isNaN := rfl
  rw [hnumber]
  cases hx : unpacked x with
  | notANumber =>
    rw [hx] at hfinite
    cases hfinite
  | _ =>
    rfl

end Double
end Reckon

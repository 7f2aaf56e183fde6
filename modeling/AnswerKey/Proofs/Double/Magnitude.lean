import AnswerKey.Double.Arithmetic
import Mathlib

/-! The bits of a double without its sign. -/
namespace AnswerKey.Double

open Float.Model (UnpackedFloat Format)
open Float.Model.UnpackedFloat

theorem isFinite_nan (negative : Bool) : (nan negative).isFinite = false := by
  cases negative <;> decide +kernel

theorem toNat_unpackMantissa (b : BitVec Format.binary64.numBits) :
    (unpackMantissa b).toNat = b.toNat % 2 ^ 52 := by
  simp [unpackMantissa, BitVec.extractLsb_toNat]

theorem toNat_unpackExponent (b : BitVec Format.binary64.numBits) :
    (unpackExponent b).toNat = b.toNat / 2 ^ 52 % 2 ^ 11 := by
  simp [unpackExponent, BitVec.extractLsb_toNat, Nat.shiftRight_eq_div_pow]

theorem toNat_packComponents (exponent : BitVec 11) (mantissa : BitVec 52) :
    (packComponents .binary64 .positive exponent mantissa).toNat =
      exponent.toNat * 2 ^ 52 + mantissa.toNat := by
  simp only [packComponents, Sign.toBitVec]
  rw [BitVec.toNat_append, ← Nat.shiftLeft_add_eq_or_of_lt mantissa.isLt, Nat.shiftLeft_eq]
  have hsign : (0#1 ++ exponent).toNat = exponent.toNat := by
    rw [BitVec.toNat_append]
    simp
  exact congrArg (· * 2 ^ 52 + mantissa.toNat) hsign

theorem exponent_of_isFinite {b : BitVec Format.binary64.numBits}
    (h : (unpack .binary64 b).isFinite = true) : unpackExponent b ≠ -1#_ := by
  intro hall
  unfold unpack at h
  simp only at h
  rw [if_pos hall] at h
  split at h <;> cases h

theorem field_of_isFinite {b : BitVec Format.binary64.numBits}
    (h : (unpack .binary64 b).isFinite = true) : b.toNat / 2 ^ 52 % 2 ^ 11 ≠ 2047 := by
  intro hfield
  refine exponent_of_isFinite h (BitVec.eq_of_toNat_eq ?_)
  rw [toNat_unpackExponent, hfield]
  rfl

theorem abs_unpack (b : BitVec Format.binary64.numBits) : (unpack .binary64 b).abs =
    unpack .binary64 (packComponents .binary64 .positive (unpackExponent b) (unpackMantissa b)) := by
  simp only [unpack, unpackExponent_packComponents, unpackMantissa_packComponents,
    unpackSign_packComponents, Sign.ofBitVec_toBitVec]
  split
  · split <;> rfl
  · split
    · split <;> rfl
    · rfl

theorem toNat_pack_abs {b : BitVec Format.binary64.numBits}
    (h : (unpack .binary64 b).isFinite = true) :
    (pack .binary64 (unpack .binary64 b).abs).toNat = b.toNat % 2 ^ 63 := by
  have hnumber : ¬isNaNBits (packComponents .binary64 .positive (unpackExponent b)
      (unpackMantissa b)) = true := by
    simpa [isNaNBits] using fun hall => absurd hall (exponent_of_isFinite h)
  rw [abs_unpack, pack_unpack, if_neg hnumber]
  have hbits := toNat_packComponents (unpackExponent b) (unpackMantissa b)
  rw [toNat_unpackExponent, toNat_unpackMantissa] at hbits
  refine hbits.trans ?_
  omega

theorem shapeOfBits_mod {bits : Nat} (h : bits / 2 ^ fractionBits % 2 ^ 11 ≠ 2047) :
    ∃ negative mantissa exponent, shapeOfBits bits = .finite negative mantissa exponent ∧
      shapeOfBits (bits % 2 ^ 63) = .finite false mantissa exponent := by
  have hfield : bits % 2 ^ 63 / 2 ^ fractionBits % 2 ^ 11 = bits / 2 ^ fractionBits % 2 ^ 11 := by
    show bits % 2 ^ 63 / 2 ^ 52 % 2 ^ 11 = bits / 2 ^ 52 % 2 ^ 11
    omega
  have hfraction : bits % 2 ^ 63 % 2 ^ fractionBits = bits % 2 ^ fractionBits := by
    show bits % 2 ^ 63 % 2 ^ 52 = bits % 2 ^ 52
    omega
  have hsign : decide (bits % 2 ^ 63 ≥ 2 ^ 63) = false := decide_eq_false (by omega)
  by_cases hzero : bits / 2 ^ fractionBits % 2 ^ 11 = 0
  · refine ⟨decide (bits ≥ 2 ^ 63), bits % 2 ^ fractionBits, leastExponent, ?_, ?_⟩
    · simp only [shapeOfBits, Nat.pow_eq, if_neg h, if_pos hzero]
    · simp only [shapeOfBits, Nat.pow_eq, hfield, hfraction, hsign, if_neg h, if_pos hzero]
  · refine ⟨decide (bits ≥ 2 ^ 63), 2 ^ fractionBits + bits % 2 ^ fractionBits,
      leastExponent + ((bits / 2 ^ fractionBits % 2 ^ 11 - 1 : Nat) : Int), ?_, ?_⟩
    · simp only [shapeOfBits, Nat.pow_eq, if_neg h, if_neg hzero]
    · simp only [shapeOfBits, Nat.pow_eq, hfield, hfraction, hsign, if_neg h, if_neg hzero]

theorem shape_abs {x : Double} (h : x.isFinite = true) : ∃ negative mantissa exponent,
    x.shape = .finite negative mantissa exponent ∧ x.abs.shape = .finite false mantissa exponent := by
  cases x with
  | nan negative => simp [isFinite_nan] at h
  | number f =>
    have habs : f.abs.toBits.toNat = f.toBits.toNat % 2 ^ 63 :=
      toNat_pack_abs (b := f.toModel.toBits.toBitVec) h
    have hfield : f.toBits.toNat / 2 ^ 52 % 2 ^ 11 ≠ 2047 :=
      field_of_isFinite (b := f.toModel.toBits.toBitVec) h
    show ∃ negative mantissa exponent, shapeOfBits f.toBits.toNat = _ ∧
      shapeOfBits f.abs.toBits.toNat = _
    rw [habs]
    exact shapeOfBits_mod hfield

theorem isNaN_of_unpacked {x : UnpackedFloat} (h : x.isFinite = true) : x.isNaN = false := by
  cases x <;> simp_all [UnpackedFloat.isNaN, UnpackedFloat.isFinite]

theorem isNaN_of_isFinite {x : Double} (h : x.isFinite = true) : x.isNaN = false :=
  isNaN_of_unpacked h

theorem isNaN_nan (negative : Bool) : (nan negative).isNaN = true := by
  cases negative <;> decide +kernel

theorem fields_of_infinite {b : BitVec Format.binary64.numBits}
    (h : (unpack .binary64 b).isNaN = false) (hfinite : (unpack .binary64 b).isFinite = false) :
    b.toNat / 2 ^ 52 % 2 ^ 11 = 2047 ∧ b.toNat % 2 ^ 52 = 0 := by
  have hexponent : unpackExponent b = -1#_ := by
    by_contra hexponent
    unfold unpack at hfinite
    simp only at hfinite
    rw [if_neg hexponent] at hfinite
    split at hfinite
    · split at hfinite <;> cases hfinite
    · cases hfinite
  have hmantissa : unpackMantissa b = 0#_ := by
    by_contra hmantissa
    simp [unpack, hexponent, hmantissa, UnpackedFloat.isNaN] at h
  rw [← toNat_unpackExponent, ← toNat_unpackMantissa, hexponent, hmantissa]
  exact ⟨rfl, rfl⟩

theorem number_eq {f g : Float} (h : f.toBits.toNat = g.toBits.toNat) : number f = number g := by
  obtain ⟨⟨bits, _⟩⟩ := f
  obtain ⟨⟨bits', _⟩⟩ := g
  obtain rfl : bits = bits' := UInt64.toNat.inj h
  rfl

theorem exists_eq_infinity {x : Double} (h : x.isNaN = false) (hfinite : x.isFinite = false) :
    ∃ negative, x = infinity negative := by
  cases x with
  | nan negative => simp [isNaN_nan] at h
  | number f =>
    obtain ⟨hfield, hfraction⟩ := fields_of_infinite (b := f.toModel.toBits.toBitVec) h hfinite
    change f.toBits.toNat / 2 ^ 52 % 2 ^ 11 = 2047 at hfield
    change f.toBits.toNat % 2 ^ 52 = 0 at hfraction
    have hlt : f.toBits.toNat < 2 ^ 64 := f.toBits.toNat_lt
    by_cases hsign : f.toBits.toNat < 2 ^ 63
    · have hbits : f.toBits.toNat = 2047 * 2 ^ 52 := by omega
      exact ⟨false, number_eq (hbits.trans (by decide +kernel))⟩
    · have hbits : f.toBits.toNat = 2 ^ 63 + 2047 * 2 ^ 52 := by omega
      exact ⟨true, number_eq (hbits.trans (by decide +kernel))⟩

end AnswerKey.Double

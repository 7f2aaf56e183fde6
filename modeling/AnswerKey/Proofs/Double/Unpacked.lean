import AnswerKey.Proofs.Double.Encoding

/-! Floats taken apart: their shapes, and the numbers that they are. -/
namespace AnswerKey.Double

open Float.Model (UnpackedFloat Format)
open Float.Model.UnpackedFloat

def isMinus : Sign → Bool
  | .negative => true
  | .positive => false

def shapeOf : UnpackedFloat → Shape
  | .notANumber => .nan false
  | .infinity s => .infinite (isMinus s)
  | .zero s => .finite (isMinus s) 0 leastExponent
  | .finite s m e _ => .finite (isMinus s) m e

theorem isMinus_unpackSign (b : BitVec Format.binary64.numBits) :
    isMinus (Sign.ofBitVec (unpackSign b)) = decide (b.toNat ≥ 2 ^ 63) := by
  have hlt : b.toNat < 2 ^ 64 := b.isLt
  have hbit : (unpackSign b).toNat = b.toNat / 2 ^ 63 := by
    have hextract : (unpackSign b).toNat = b.toNat / 2 ^ 63 % 2 := by
      simp [unpackSign, BitVec.extractLsb_toNat, Nat.shiftRight_eq_div_pow]
    omega
  by_cases hsign : b.toNat ≥ 2 ^ 63
  · have hone : unpackSign b ≠ 0#1 := by
      intro hzero
      have hnat := congrArg BitVec.toNat hzero
      rw [hbit] at hnat
      change b.toNat / 2 ^ 63 = 0 at hnat
      omega
    rw [Sign.ofBitVec, if_neg hone, decide_eq_true hsign]
    rfl
  · have hzero : unpackSign b = 0#1 := by
      refine BitVec.eq_of_toNat_eq ?_
      rw [hbit]
      show b.toNat / 2 ^ 63 = 0
      omega
    rw [Sign.ofBitVec, if_pos hzero, decide_eq_false hsign]
    rfl

theorem toNat_mantissa_normal (m : BitVec 52) : (1#1 ++ m).toNat = 2 ^ 52 + m.toNat := by
  rw [BitVec.toNat_append, ← Nat.shiftLeft_add_eq_or_of_lt m.isLt, Nat.shiftLeft_eq]
  rfl

theorem shapeOfBits_eq {b : BitVec Format.binary64.numBits}
    (h : (unpack .binary64 b).isNaN = false) :
    shapeOfBits b.toNat = shapeOf (unpack .binary64 b) := by
  have hfield := toNat_unpackExponent b
  have hfraction := toNat_unpackMantissa b
  have hsign := isMinus_unpackSign b
  unfold unpack at h ⊢
  simp only at h ⊢
  simp only [shapeOfBits, fractionBits, Nat.pow_eq, ← hfield, ← hfraction, ← hsign]
  by_cases hall : unpackExponent b = -1#_
  · have hfull : (unpackExponent b).toNat = 2047 := congrArg BitVec.toNat hall
    rw [if_pos hall] at h ⊢
    rw [if_pos hfull]
    by_cases hmantissa : unpackMantissa b = 0#_
    · have hnone : (unpackMantissa b).toNat = 0 := congrArg BitVec.toNat hmantissa
      rw [if_pos hmantissa, if_pos hnone]
      rfl
    · rw [if_neg hmantissa] at h
      cases h
  · have hnotfull : (unpackExponent b).toNat ≠ 2047 := fun hnat =>
      hall (BitVec.eq_of_toNat_eq hnat)
    rw [if_neg hall, if_neg hnotfull]
    by_cases hexponent : unpackExponent b = 0#_
    · have hempty : (unpackExponent b).toNat = 0 := congrArg BitVec.toNat hexponent
      rw [if_pos hexponent, if_pos hempty]
      by_cases hmantissa : unpackMantissa b = 0#_
      · rw [dif_pos hmantissa, congrArg BitVec.toNat hmantissa]
        rfl
      · rw [dif_neg hmantissa, hempty]
        rfl
    · have hsome : (unpackExponent b).toNat ≠ 0 := fun hnat =>
        hexponent (BitVec.eq_of_toNat_eq hnat)
      rw [if_neg hexponent, if_neg hsome]
      simp only [shapeOf, toNat_mantissa_normal]
      congr 1
      show leastExponent + (((unpackExponent b).toNat - 1 : Nat) : Int) =
        (unpackExponent b).toNat - (1023 + 52)
      rw [show leastExponent = -1074 from rfl]
      omega

theorem shape_number {f : Float} (h : f.isNaN = false) :
    (number f).shape = shapeOf f.toModel.unpack :=
  shapeOfBits_eq (b := f.toModel.toBits.toBitVec) h

theorem shape_nan (negative : Bool) : (nan negative).shape = .nan negative := rfl

/-! Signs. -/

theorem unpack_pack_unpack (b : BitVec Format.binary64.numBits) :
    unpack .binary64 (pack .binary64 (unpack .binary64 b)) = unpack .binary64 b := by
  rw [pack_unpack]
  split
  · next hnan =>
    obtain ⟨hexponent, hmantissa⟩ : unpackExponent b = -1#_ ∧ unpackMantissa b ≠ 0#_ := by
      simpa [isNaNBits] using hnan
    rw [unpack_packedNaN, unpack]
    simp only [hexponent, if_true, if_neg hmantissa]
  · rfl

theorem abs_unpack_packComponents (s : Sign) (exponent : BitVec 11) (mantissa : BitVec 52) :
    (unpack .binary64 (packComponents .binary64 s exponent mantissa)).abs =
      unpack .binary64 (packComponents .binary64 .positive exponent mantissa) := by
  rw [abs_unpack, unpackExponent_packComponents, unpackMantissa_packComponents]

theorem abs_unpack_pack (u : UnpackedFloat) :
    (unpack .binary64 (pack .binary64 u)).abs = unpack .binary64 (pack .binary64 u.abs) := by
  cases u with
  | notANumber =>
    rw [show (notANumber : UnpackedFloat).abs = notANumber from rfl, pack, unpack_packedNaN]
    rfl
  | infinity s => exact abs_unpack_packComponents s _ _
  | zero s => exact abs_unpack_packComponents s _ _
  | finite s m e hm =>
    rw [show (finite s m e hm).abs = .finite .positive m e hm from rfl, pack, pack]
    simp only
    split
    · exact abs_unpack_packComponents s _ _
    · split
      · exact abs_unpack_packComponents s _ _
      · exact abs_unpack_packComponents s _ _

theorem unpack_abs (f : Float) : f.abs.toModel.unpack = f.toModel.unpack.abs := by
  have hkept := abs_unpack_pack f.toModel.unpack
  change _ = f.abs.toModel.unpack at hkept
  rw [← hkept]
  exact congrArg UnpackedFloat.abs (unpack_pack_unpack f.toModel.toBits.toBitVec)

theorem isNaN_abs (u : UnpackedFloat) : u.abs.isNaN = u.isNaN := by
  cases u <;> rfl

def Shape.unsigned : Shape → Shape
  | .nan _ => .nan false
  | .infinite _ => .infinite false
  | .finite _ m e => .finite false m e

theorem unsigned_shapeOf (u : UnpackedFloat) : (shapeOf u).unsigned = shapeOf u.abs := by
  cases u <;> rfl

theorem eq_nan_of_isNaN {f : Float} (h : f.isNaN = true) : f = Float.nan := by
  rw [Float.isNaN_eq_decide_eq_nan] at h
  exact of_decide_eq_true h

theorem shape_abs_eq (x : Double) : x.abs.shape = x.shape.unsigned := by
  cases x with
  | nan negative => rfl
  | number f =>
    cases h : f.isNaN with
    | true =>
      rw [eq_nan_of_isNaN h]
      decide +kernel
    | false =>
      have habs : f.abs.isNaN = false := by
        show f.abs.toModel.unpack.isNaN = false
        rw [unpack_abs, isNaN_abs]
        exact h
      show (number f.abs).shape = _
      rw [shape_number h, shape_number habs, unpack_abs, unsigned_shapeOf]

theorem toFloat_of_shape_nan {x : Double} {negative : Bool} (h : x.shape = .nan negative) :
    x.toFloat = Float.nan := by
  cases x with
  | nan negative => rfl
  | number f =>
    cases hnan : f.isNaN with
    | true => exact eq_nan_of_isNaN hnan
    | false =>
      have hnumber : f.toModel.unpack.isNaN = false := hnan
      rw [shape_number hnan] at h
      cases hu : f.toModel.unpack with
      | notANumber => simp [hu, UnpackedFloat.isNaN] at hnumber
      | _ => simp [hu, shapeOf] at h

end AnswerKey.Double

import AnswerKey.Proofs.Double.Magnitude
import AnswerKey.Value

/-! Doubles that are not below zero: differences of a double and itself, and
products of a positive double. -/
namespace AnswerKey

open Float.Model (UnpackedFloat Format)
open Float.Model.UnpackedFloat (Sign packComponents unpack pack unpackExponent_packComponents
  unpackMantissa_packComponents unpackSign_packComponents)

def isNonneg : UnpackedFloat → Bool
  | .infinity .positive | .zero .positive | .finite .positive _ _ _ => true
  | _ => false

theorem isNonneg_packComponents {spec : Format} {exponent : BitVec spec.exponentBits}
    {mantissa : BitVec spec.mantissaBitsWithoutImplicit}
    (h : exponent = -1#_ → mantissa = 0#_) :
    isNonneg (unpack spec (packComponents spec .positive exponent mantissa)) = true := by
  simp only [unpack, unpackMantissa_packComponents, unpackExponent_packComponents,
    unpackSign_packComponents, Sign.ofBitVec_toBitVec]
  by_cases hall : exponent = -1#_
  · rw [if_pos hall, if_pos (h hall)]
    rfl
  · rw [if_neg hall]
    split
    · split <;> rfl
    · rfl

theorem isNonneg_pack {spec : Format} {u : UnpackedFloat} (h : isNonneg u = true) :
    isNonneg (unpack spec (pack spec u)) = true := by
  have hbits := spec.he
  have hpow : 2 ^ 1 ≤ 2 ^ spec.exponentBits := Nat.pow_le_pow_right (by decide) hbits
  have small {n : Nat} (hn : n + 1 < 2 ^ spec.exponentBits) :
      BitVec.ofNat spec.exponentBits n ≠ -1#_ := by
    intro hall
    have hnat := congrArg BitVec.toNat hall
    rw [BitVec.toNat_ofNat, BitVec.neg_one_eq_allOnes, BitVec.toNat_allOnes,
      Nat.mod_eq_of_lt (by omega)] at hnat
    omega
  cases u with
  | notANumber => cases h
  | infinity sign =>
    cases sign with
    | negative => cases h
    | positive => exact isNonneg_packComponents fun _ => rfl
  | zero sign =>
    cases sign with
    | negative => cases h
    | positive => exact isNonneg_packComponents fun _ => rfl
  | finite sign mantissa exponent hm =>
    cases sign with
    | negative => cases h
    | positive =>
      simp only [pack]
      split
      · exact isNonneg_packComponents fun _ => rfl
      · next hfits =>
        split
        · exact isNonneg_packComponents fun hall => absurd hall (small (by omega))
        · refine isNonneg_packComponents fun hall => ?_
          exact absurd hall (small (n := 0) (by omega))

theorem isNonneg_mul {spec : Format} {mantissa : Nat} {exponent : Int} {hm : 0 < mantissa}
    {u : UnpackedFloat} (h : isNonneg u = true) :
    isNonneg (Float.Model.UnpackedFloat.mul spec (.finite .positive mantissa exponent hm) u) =
      true := by
  cases u with
  | notANumber => cases h
  | infinity sign =>
    cases sign with
    | negative => cases h
    | positive => rfl
  | zero sign =>
    cases sign with
    | negative => cases h
    | positive => rfl
  | finite sign mantissa exponent hm =>
    cases sign with
    | negative => cases h
    | positive =>
      simp only [Float.Model.UnpackedFloat.mul, Float.Model.UnpackedFloat.roundWithAccuracy]
      split <;> rfl

/-! Floats and doubles. -/

namespace Double

def zeroFloat : Float := .ofModel (.pack (.zero .positive))

theorem sub_self_float {f : Float} (h : f.isFinite = true) : f - f = zeroFloat := by
  have hsub : Float.Model.UnpackedFloat.sub .binary64 f.toModel.unpack f.toModel.unpack =
      .zero .positive := by
    have hfinite : f.toModel.unpack.isFinite = true := h
    cases hu : f.toModel.unpack with
    | notANumber => simp [hu, Float.Model.UnpackedFloat.isFinite] at hfinite
    | infinity sign => simp [hu, Float.Model.UnpackedFloat.isFinite] at hfinite
    | zero sign => cases sign <;> rfl
    | finite sign mantissa exponent hm =>
      simp [Float.Model.UnpackedFloat.sub, Float.Model.UnpackedFloat.normalize]
  show Float.ofModel (.pack (Float.Model.UnpackedFloat.sub .binary64 _ _)) = _
  rw [hsub]
  rfl

theorem sub_self {x : Double} (h : x.isFinite = true) : x - x = number zeroFloat := by
  cases x with
  | nan negative => simp [isFinite_nan] at h
  | number f =>
    have hf : f.isFinite = true := h
    show ofResult (f - f) = _
    rw [sub_self_float hf]
    rfl

theorem hypot_zero : (hypot (number zeroFloat) (number zeroFloat)).toFloat = zeroFloat :=
  rfl

theorem zero_sub_zero : (0 : Double) - 0 = number zeroFloat := by
  exact sub_self rfl

theorem zeroFloat_le {f : Float} (h : isNonneg f.toModel.unpack = true) : zeroFloat ≤ f := by
  have hle : Float.Model.UnpackedFloat.le (.zero .positive) f.toModel.unpack = true := by
    cases hu : f.toModel.unpack with
    | notANumber => simp [hu, isNonneg] at h
    | infinity sign | zero sign | finite sign _ _ _ =>
      cases sign with
      | negative => simp [hu, isNonneg] at h
      | positive => rfl
  exact decide_eq_true hle

theorem not_isNaN {f : Float} (h : isNonneg f.toModel.unpack = true) : f.isNaN = false := by
  show Float.Model.UnpackedFloat.isNaN f.toModel.unpack = false
  cases hu : f.toModel.unpack with
  | notANumber => simp [hu, isNonneg] at h
  | _ => rfl

theorem exists_of_pos {x : Double} (h : x.isFinite = true) (hpos : 0 < x) :
    ∃ f mantissa exponent hm, x = number f ∧
      f.toModel.unpack = .finite .positive mantissa exponent hm := by
  cases x with
  | nan negative => simp [isFinite_nan] at h
  | number f =>
    have hfinite : f.toModel.unpack.isFinite = true := h
    have hlt : Float.Model.UnpackedFloat.lt (.zero .positive) f.toModel.unpack = true :=
      of_decide_eq_true hpos
    cases hu : f.toModel.unpack with
    | notANumber => simp [hu, Float.Model.UnpackedFloat.isFinite] at hfinite
    | infinity sign => simp [hu, Float.Model.UnpackedFloat.isFinite] at hfinite
    | zero sign =>
      rw [hu] at hlt
      cases hlt
    | finite sign mantissa exponent hm =>
      cases sign with
      | negative =>
        rw [hu] at hlt
        cases hlt
      | positive => exact ⟨f, mantissa, exponent, hm, rfl, hu⟩

theorem exists_larger_one (x : Double) :
    ∃ f, larger x 1 = number f ∧ isNonneg f.toModel.unpack = true := by
  have hone : (1 : Float).toModel.unpack = .finite .positive (2 ^ 52) (-52) (by decide) := rfl
  have hnan : (1 : Double).isNaN = false := rfl
  unfold larger
  by_cases hx : x.isNaN = true
  · rw [if_pos hx]
    exact ⟨_, rfl, rfl⟩
  · rw [if_neg hx, hnan]
    simp only [Bool.false_eq_true, if_false]
    split
    · exact ⟨_, rfl, rfl⟩
    · next hlt =>
      cases x with
      | nan negative =>
        have : (Double.nan negative).isNaN = true := by
          cases negative <;> decide +kernel
        exact absurd this hx
      | number f =>
        refine ⟨f, rfl, ?_⟩
        have hnumber : ¬Float.Model.UnpackedFloat.isNaN f.toModel.unpack = true := hx
        have hnotless : ¬Float.Model.UnpackedFloat.lt f.toModel.unpack (1 : Float).toModel.unpack =
            true := fun h => hlt (decide_eq_true h)
        rw [hone] at hnotless
        cases hu : f.toModel.unpack with
        | notANumber => exact absurd (by rw [hu]; rfl) hnumber
        | zero sign => exact absurd (by rw [hu]; cases sign <;> rfl) hnotless
        | infinity sign =>
          cases sign with
          | negative => exact absurd (by rw [hu]; rfl) hnotless
          | positive => rfl
        | finite sign mantissa exponent hm =>
          cases sign with
          | negative => exact absurd (by rw [hu]; rfl) hnotless
          | positive => rfl

/-- A bound that is a positive tolerance times at least one is not below zero. -/
theorem zero_le_bound {tolerance : Double} (h : tolerance.isFinite = true) (hpos : 0 < tolerance)
    (x : Double) : number zeroFloat ≤ tolerance * larger x 1 := by
  obtain ⟨f, mantissa, exponent, hm, rfl, hf⟩ := exists_of_pos h hpos
  obtain ⟨g, hg, hnonneg⟩ := exists_larger_one x
  have hproduct : isNonneg (f * g).toModel.unpack = true := by
    show isNonneg (unpack .binary64 (pack .binary64
      (Float.Model.UnpackedFloat.mul .binary64 f.toModel.unpack g.toModel.unpack))) = true
    rw [hf]
    exact isNonneg_pack (isNonneg_mul hnonneg)
  have hresult : number f * number g = number (f * g) := by
    show ofResult (f * g) = _
    rw [ofResult, not_isNaN hproduct]
    rfl
  rw [hg, hresult]
  exact zeroFloat_le hproduct

end Double

theorem Value.approxEq_self {tolerance : Double} (h : tolerance.isFinite = true)
    (hpos : 0 < tolerance) {v : Value} (hv : v.isFinite = true) :
    v.approxEq tolerance v = true := by
  have hdifference : v.toComplex - v.toComplex =
      ⟨.number Double.zeroFloat, .number Double.zeroFloat⟩ := by
    cases v with
    | real x =>
      show (⟨x - x, 0 - 0⟩ : Complex) = _
      rw [Double.sub_self hv, Double.zero_sub_zero]
    | complex z =>
      have hz : z.re.isFinite = true ∧ z.im.isFinite = true := by
        simpa [isFinite, Complex.isFinite] using hv
      show (⟨z.re - z.re, z.im - z.im⟩ : Complex) = _
      rw [Double.sub_self hz.1, Double.sub_self hz.2]
  have hbound := Double.zero_le_bound h hpos (Double.larger v.magnitude v.magnitude)
  rw [approxEq, hdifference]
  refine decide_eq_true ?_
  show (Double.hypot (.number Double.zeroFloat) (.number Double.zeroFloat)).toFloat ≤ _
  rw [Double.hypot_zero]
  exact hbound

end AnswerKey

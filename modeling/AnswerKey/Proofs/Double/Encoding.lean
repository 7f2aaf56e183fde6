import AnswerKey.Proofs.Double.Magnitude

/-! Doubles with a plus sign: the shape of one that is encoded, and its exact
value. -/
namespace AnswerKey.Double

open Float.Model (Format)
open Float.Model.UnpackedFloat

theorem not_isNaNBits {b : BitVec Format.binary64.numBits} (h : b.toNat ≤ 2047 * 2 ^ 52) :
    ¬isNaNBits b = true := by
  simp only [isNaNBits, decide_eq_true_eq, not_and, not_not]
  intro hexponent
  have hfield := congrArg BitVec.toNat hexponent
  rw [toNat_unpackExponent] at hfield
  have hall : b.toNat / 2 ^ 52 % 2 ^ 11 = 2047 := hfield
  refine BitVec.eq_of_toNat_eq ?_
  rw [toNat_unpackMantissa]
  show b.toNat % 2 ^ 52 = 0
  omega

theorem toNat_toBits {bits : Nat} (h : bits ≤ 2047 * 2 ^ 52) :
    (Float.ofBits (UInt64.ofNat bits)).toBits.toNat = bits := by
  have hbits : (UInt64.ofNat bits).toNat = bits := UInt64.toNat_ofNat_of_lt (by
    show bits < 2 ^ 64
    omega)
  have hpack : pack .binary64 (unpack .binary64 (UInt64.ofNat bits).toBitVec) =
      (UInt64.ofNat bits).toBitVec := by
    rw [pack_unpack, if_neg (not_isNaNBits (hbits.trans_le h))]
  show (pack .binary64 (unpack .binary64 (UInt64.ofNat bits).toBitVec)).toNat = bits
  rw [hpack]
  exact hbits

theorem shape_ofBits {bits : Nat} (h : bits ≤ 2047 * 2 ^ 52) :
    (number (.ofBits (UInt64.ofNat bits))).shape = shapeOfBits bits :=
  congrArg shapeOfBits (toNat_toBits h)

theorem shape_infinity : (infinity false).shape = .infinite false :=
  shape_ofBits (Nat.le_refl (2047 * 2 ^ 52))

theorem shape_encode_bits {mantissa bits : Nat} {exponent : Int}
    (hbits : (exponent - leastExponent).toNat * 2 ^ 52 + mantissa = bits)
    (h : bits < 2047 * 2 ^ 52) : (encode false mantissa exponent).shape = shapeOfBits bits := by
  have hmagnitude : (exponent - leastExponent).toNat * Nat.pow 2 fractionBits + mantissa = bits :=
    hbits
  unfold encode
  simp only [hmagnitude]
  rw [if_neg (by simp only [fractionBits, Nat.pow_eq]; omega)]
  simp only [Bool.false_eq_true, if_false, Nat.zero_add]
  exact shape_ofBits (Nat.le_of_lt h)

theorem shape_encode {mantissa exponent : Nat} (hm : 2 ^ 52 ≤ mantissa) (hm' : mantissa < 2 ^ 53)
    (he : exponent ≤ 2045) : (encode false mantissa (leastExponent + exponent)).shape =
      .finite false mantissa (leastExponent + exponent) := by
  have hbits : (leastExponent + exponent - leastExponent).toNat * 2 ^ 52 + mantissa =
      (exponent + 1) * 2 ^ 52 + (mantissa - 2 ^ 52) := by omega
  have hfield :
      ((exponent + 1) * 2 ^ 52 + (mantissa - 2 ^ 52)) / 2 ^ 52 % 2 ^ 11 = exponent + 1 := by
    omega
  have hfraction :
      ((exponent + 1) * 2 ^ 52 + (mantissa - 2 ^ 52)) % 2 ^ 52 = mantissa - 2 ^ 52 := by
    omega
  have hsign : ¬(exponent + 1) * 2 ^ 52 + (mantissa - 2 ^ 52) ≥ 2 ^ 63 := by omega
  rw [shape_encode_bits hbits (by omega)]
  simp only [shapeOfBits, fractionBits, Nat.pow_eq, hfield, hfraction, decide_eq_false hsign]
  rw [if_neg (by omega), if_neg (by omega), Nat.add_sub_cancel, Nat.add_sub_cancel' hm]

def exact (x : Double) : Option ℚ :=
  match x.shape with
  | .finite negative mantissa exponent =>
    some ((if negative then -1 else 1) * mantissa * 2 ^ exponent)
  | _ => none

end AnswerKey.Double

import AnswerKey.Proofs.Double.Unpacked

/-! Finite doubles: each has 53 bits unless it is one of the smallest, and its
parts come back from the bits that they are packed into. -/
namespace AnswerKey.Double

open Float.Model (UnpackedFloat Format)
open Float.Model.UnpackedFloat

def greatestExponent : Int := 971

/-- A mantissa and an exponent as doubles have them, but for a limit above. -/
structure Canonical (mantissa : Nat) (exponent : Int) : Prop where
  small : mantissa < 2 ^ 53
  least : leastExponent ≤ exponent
  full : 2 ^ 52 ≤ mantissa ∨ exponent = leastExponent

theorem Canonical.of_rounded {mantissa n : Nat} {exponent : Int} (h : Canonical mantissa exponent)
    (hlow : mantissa ≤ n) (hhigh : n ≤ mantissa + 1) : n = 2 ^ 53 ∨ Canonical n exponent := by
  by_cases hcarry : n = 2 ^ 53
  · exact .inl hcarry
  · have hsmall := h.small
    exact .inr ⟨by omega, h.least, h.full.imp_left fun hfull => hfull.trans hlow⟩

theorem canonical_carry {exponent : Int} (h : leastExponent ≤ exponent) :
    Canonical (2 ^ 52) (exponent + 1) :=
  ⟨by decide, by omega, .inl le_rfl⟩

theorem canonical_zero : Canonical 0 leastExponent := ⟨by decide, le_rfl, .inr rfl⟩

theorem carry_value (exponent : Int) :
    ((2 ^ 52 : Nat) : ℚ) * 2 ^ (exponent + 1) = ((2 ^ 53 : Nat) : ℚ) * 2 ^ exponent := by
  rw [zpow_add₀ (by norm_num)]
  push_cast
  ring

theorem canonical_of_shapeOfBits {bits mantissa : Nat} {negative : Bool} {exponent : Int}
    (h : shapeOfBits bits = .finite negative mantissa exponent) :
    Canonical mantissa exponent ∧ exponent ≤ greatestExponent := by
  have hfraction : bits % Nat.pow 2 fractionBits < 2 ^ 52 := Nat.mod_lt _ (by decide)
  have hfield : bits / Nat.pow 2 fractionBits % Nat.pow 2 11 < 2 ^ 11 :=
    Nat.mod_lt _ (by decide)
  have hbit : Nat.pow 2 fractionBits = 2 ^ 52 := rfl
  unfold shapeOfBits at h
  simp only at h
  split_ifs at h with hall
  · cases h
    exact ⟨⟨by omega, le_rfl, .inr rfl⟩, by decide⟩
  · cases h
    refine ⟨⟨by omega, by omega, .inl (by omega)⟩, ?_⟩
    rw [leastExponent, greatestExponent]
    omega

theorem canonical_of_shape {x : Double} {negative : Bool} {mantissa : Nat} {exponent : Int}
    (h : x.shape = .finite negative mantissa exponent) :
    Canonical mantissa exponent ∧ exponent ≤ greatestExponent := by
  cases x with
  | nan s => cases h
  | number f => exact canonical_of_shapeOfBits h

def ofParts (s : Sign) (mantissa : Nat) (exponent : Int) : UnpackedFloat :=
  if h : mantissa = 0 then .zero s else .finite s mantissa exponent (Nat.pos_of_ne_zero h)

theorem shape_nan_float : (number Float.nan).shape = .nan false := by
  decide +kernel

theorem ofParts_of_shape {f : Float} {negative : Bool} {mantissa : Nat} {exponent : Int}
    (h : (number f).shape = .finite negative mantissa exponent) :
    ∃ s, isMinus s = negative ∧ f.toModel.unpack = ofParts s mantissa exponent := by
  have hnan : f.isNaN = false := by
    cases hf : f.isNaN with
    | false => rfl
    | true =>
      rw [eq_nan_of_isNaN hf, shape_nan_float] at h
      cases h
  rw [shape_number hnan] at h
  cases hu : f.toModel.unpack with
  | notANumber => simp [hu, shapeOf] at h
  | infinity s => simp [hu, shapeOf] at h
  | zero s =>
    rw [hu] at h
    cases h
    exact ⟨s, rfl, rfl⟩
  | finite s m e hm =>
    rw [hu] at h
    cases h
    exact ⟨s, rfl, by rw [ofParts, dif_neg hm.ne']⟩

theorem unpack_packComponents (s : Sign) {exponent : BitVec 11} (mantissa : BitVec 52)
    (h : exponent ≠ -1#_) :
    unpack .binary64 (packComponents .binary64 s exponent mantissa) =
      if exponent.toNat = 0 then ofParts s mantissa.toNat leastExponent
      else ofParts s (2 ^ 52 + mantissa.toNat) (leastExponent + (exponent.toNat - 1 : Nat)) := by
  simp only [unpack, unpackMantissa_packComponents, unpackExponent_packComponents,
    unpackSign_packComponents, Sign.ofBitVec_toBitVec, if_neg h]
  by_cases hzero : exponent = 0#_
  · have hempty : exponent.toNat = 0 := congrArg BitVec.toNat hzero
    rw [if_pos hzero, if_pos hempty]
    by_cases hmantissa : mantissa = 0#_
    · have hnone : mantissa.toNat = 0 := congrArg BitVec.toNat hmantissa
      rw [dif_pos hmantissa, ofParts, dif_pos hnone]
    · have hsome : mantissa.toNat ≠ 0 := fun hnat =>
        hmantissa (BitVec.eq_of_toNat_eq hnat)
      rw [dif_neg hmantissa, ofParts, dif_neg hsome, hempty]
      rfl
  · have hsome : exponent.toNat ≠ 0 := fun hnat => hzero (BitVec.eq_of_toNat_eq hnat)
    rw [if_neg hzero, if_neg hsome, ofParts, dif_neg (by omega)]
    simp only [toNat_mantissa_normal]
    congr 1
    show (exponent.toNat : Int) - (1023 + 52) = -1074 + ((exponent.toNat - 1 : Nat) : Int)
    omega

theorem unpack_packedInfinity (s : Sign) :
    unpack .binary64 (packedInfinity .binary64 s) = .infinity s := by
  simp [unpack, packedInfinity]

theorem pack_ofParts (s : Sign) {mantissa : Nat} (h : mantissa ≠ 0) (exponent : Int) :
    pack .binary64 (ofParts s mantissa exponent) =
      if 2 ^ 11 ≤ (exponent + 1075).toNat + 1 then packedInfinity .binary64 s
      else if mantissa.log2 = 52 then
        packComponents .binary64 s (BitVec.ofNat 11 (exponent + 1075).toNat)
          (BitVec.ofNat 52 mantissa)
      else packComponents .binary64 s 0#11 (BitVec.ofNat 52 mantissa) := by
  have hfield : (exponent + Format.binary64.exponentBias + (52 : Nat)).toNat =
      (exponent + 1075).toNat := by
    rw [show Format.binary64.exponentBias = 1023 from rfl]
    omega
  rw [ofParts, dif_neg h, pack]
  simp only [hfield, Format.mantissaBits, Nat.add_comm 1, Nat.add_right_cancel_iff]

theorem unpack_normal (s : Sign) {mantissa : Nat} {exponent : Int}
    (h : Canonical mantissa exponent) (hfull : 2 ^ 52 ≤ mantissa)
    (hlimit : exponent ≤ greatestExponent) :
    unpack .binary64 (packComponents .binary64 s (BitVec.ofNat 11 (exponent + 1075).toNat)
      (BitVec.ofNat 52 mantissa)) = ofParts s mantissa exponent := by
  have hsmall := h.small
  have hleast := h.least
  rw [leastExponent] at hleast
  rw [greatestExponent] at hlimit
  have hfield : (BitVec.ofNat 11 (exponent + 1075).toNat).toNat = (exponent + 1075).toNat := by
    rw [BitVec.toNat_ofNat, Nat.mod_eq_of_lt (by omega)]
  have hfraction : (BitVec.ofNat 52 mantissa).toNat = mantissa - 2 ^ 52 := by
    rw [BitVec.toNat_ofNat]
    omega
  have hnotall : BitVec.ofNat 11 (exponent + 1075).toNat ≠ -1#_ := by
    intro hall
    have hnat : (exponent + 1075).toNat = 2047 :=
      hfield.symm.trans (congrArg BitVec.toNat hall)
    omega
  rw [unpack_packComponents s _ hnotall, hfield, hfraction, if_neg (by omega),
    Nat.add_sub_cancel' hfull]
  congr 1
  rw [leastExponent]
  omega

theorem unpack_subnormal (s : Sign) {mantissa : Nat} (h : mantissa < 2 ^ 52) :
    unpack .binary64 (packComponents .binary64 s 0#11 (BitVec.ofNat 52 mantissa)) =
      ofParts s mantissa leastExponent := by
  have hfraction : (BitVec.ofNat 52 mantissa).toNat = mantissa := by
    rw [BitVec.toNat_ofNat, Nat.mod_eq_of_lt h]
  rw [unpack_packComponents s _ (by decide), hfraction]
  rfl

theorem unpack_pack_ofParts (s : Sign) {mantissa : Nat} {exponent : Int}
    (h : Canonical mantissa exponent) :
    unpack .binary64 (pack .binary64 (ofParts s mantissa exponent)) =
      if exponent ≤ greatestExponent then ofParts s mantissa exponent else .infinity s := by
  have hleast := h.least
  rw [leastExponent] at hleast
  by_cases hmantissa : mantissa = 0
  · obtain rfl : exponent = leastExponent := h.full.resolve_left (by omega)
    rw [ofParts, dif_pos hmantissa, if_pos (by decide)]
    exact unpack_packedZero
  · rw [pack_ofParts s hmantissa]
    by_cases hlimit : exponent ≤ greatestExponent
    · have hfield : ¬2 ^ 11 ≤ (exponent + 1075).toNat + 1 := by
        rw [greatestExponent] at hlimit
        omega
      rw [if_pos hlimit, if_neg hfield]
      by_cases hfull : 2 ^ 52 ≤ mantissa
      · rw [if_pos ((Nat.log2_eq_iff hmantissa).2 ⟨hfull, h.small⟩)]
        exact unpack_normal s h hfull hlimit
      · have hlog : mantissa.log2 ≠ 52 := ((Nat.log2_lt hmantissa).2 (by omega)).ne
        rw [if_neg hlog, h.full.resolve_left hfull]
        exact unpack_subnormal s (by omega)
    · have hfield : 2 ^ 11 ≤ (exponent + 1075).toNat + 1 := by
        rw [greatestExponent] at hlimit
        omega
      rw [if_neg hlimit, if_pos hfield, unpack_packedInfinity]

theorem shapeOf_ofParts (s : Sign) {mantissa : Nat} {exponent : Int}
    (h : Canonical mantissa exponent) :
    shapeOf (ofParts s mantissa exponent) = .finite (isMinus s) mantissa exponent := by
  by_cases hmantissa : mantissa = 0
  · obtain rfl : exponent = leastExponent := h.full.resolve_left (by omega)
    rw [ofParts, dif_pos hmantissa, hmantissa]
    rfl
  · rw [ofParts, dif_neg hmantissa]
    rfl

theorem unpack_ofModel_pack (u : UnpackedFloat) :
    (Float.ofModel (.pack u)).toModel.unpack = unpack .binary64 (pack .binary64 u) := rfl

theorem isNaN_float (f : Float) : f.isNaN = f.toModel.unpack.isNaN := rfl

theorem isNaN_ofParts (s : Sign) (mantissa : Nat) (exponent : Int) :
    (ofParts s mantissa exponent).isNaN = false := by
  rw [ofParts]
  split <;> rfl

theorem isNaN_packed (s : Sign) {mantissa : Nat} {exponent : Int}
    (h : Canonical mantissa exponent) :
    (Float.ofModel (.pack (ofParts s mantissa exponent))).isNaN = false := by
  rw [isNaN_float, unpack_ofModel_pack, unpack_pack_ofParts s h]
  split
  · exact isNaN_ofParts s mantissa exponent
  · rfl

theorem shape_packed (s : Sign) {mantissa : Nat} {exponent : Int}
    (h : Canonical mantissa exponent) :
    (number (.ofModel (.pack (ofParts s mantissa exponent)))).shape =
      if exponent ≤ greatestExponent then .finite (isMinus s) mantissa exponent
      else .infinite (isMinus s) := by
  rw [shape_number (isNaN_packed s h), unpack_ofModel_pack, unpack_pack_ofParts s h]
  split
  · exact shapeOf_ofParts s h
  · rfl

/-! Exact values. -/

def signed (negative : Bool) (mantissa : Nat) (exponent : Int) : ℚ :=
  (if negative then -1 else 1) * (mantissa * 2 ^ exponent)

theorem signed_zero (negative : Bool) (exponent : Int) : signed negative 0 exponent = 0 := by
  simp [signed]

theorem signed_positive (mantissa : Nat) (exponent : Int) :
    signed false mantissa exponent = mantissa * 2 ^ exponent := by
  simp [signed]

theorem signed_not (negative : Bool) (mantissa : Nat) (exponent : Int) :
    signed (!negative) mantissa exponent = -signed negative mantissa exponent := by
  cases negative <;> simp [signed]

theorem signed_mul (s t : Bool) (m n : Nat) (e f : Int) :
    signed (xor s t) (m * n) (e + f) = signed s m e * signed t n f := by
  have hmagnitude : ((m * n : Nat) : ℚ) * 2 ^ (e + f) = (m * 2 ^ e) * (n * 2 ^ f) := by
    rw [zpow_add₀ (by norm_num)]
    push_cast
    ring
  rw [signed, signed, signed, hmagnitude]
  cases s <;> cases t <;> simp

theorem abs_signed (negative : Bool) (mantissa : Nat) (exponent : Int) :
    |signed negative mantissa exponent| = mantissa * 2 ^ exponent := by
  have hnonneg : (0 : ℚ) ≤ mantissa * 2 ^ exponent := by positivity
  cases negative <;> simp [signed, abs_of_nonneg hnonneg]

theorem exact_eq_some {x : Double} {r : ℚ} : x.exact = some r ↔
    ∃ negative mantissa exponent, x.shape = .finite negative mantissa exponent ∧
      r = signed negative mantissa exponent := by
  rw [exact]
  cases x.shape with
  | nan s => simp
  | infinite s => simp
  | finite s m e => simp [signed, eq_comm]

theorem exists_parts {x : Double} {r : ℚ} (h : x.exact = some r) :
    ∃ f s m e, x = number f ∧ f.toModel.unpack = ofParts s m e ∧ Canonical m e ∧
      e ≤ greatestExponent ∧ r = signed (isMinus s) m e := by
  obtain ⟨negative, m, e, hshape, rfl⟩ := exact_eq_some.1 h
  obtain ⟨hcanonical, hlimit⟩ := canonical_of_shape hshape
  cases x with
  | nan => cases hshape
  | number f =>
    obtain ⟨s, rfl, hs⟩ := ofParts_of_shape hshape
    exact ⟨f, s, m, e, rfl, hs, hcanonical, hlimit, rfl⟩

theorem isFinite_iff_exact {x : Double} : x.isFinite = true ↔ ∃ r, x.exact = some r := by
  simp only [exact_eq_some]
  cases x with
  | nan s => simp [isFinite_nan, shape_nan]
  | number f =>
    show f.toModel.unpack.isFinite = true ↔ _
    cases hf : f.isNaN with
    | true =>
      have hunpack : f.toModel.unpack = notANumber := isNaN_iff.1 hf
      rw [eq_nan_of_isNaN hf] at hunpack ⊢
      simp [hunpack, UnpackedFloat.isFinite, shape_nan_float]
    | false =>
      rw [shape_number hf]
      cases f.toModel.unpack <;> simp [UnpackedFloat.isFinite, shapeOf]

theorem isFinite_of_exact {x : Double} {r : ℚ} (h : x.exact = some r) : x.isFinite = true :=
  isFinite_iff_exact.2 ⟨r, h⟩

theorem abs_exact_lt {x : Double} {r : ℚ} (h : x.exact = some r) : |r| < 2 ^ (1024 : Int) := by
  obtain ⟨-, s, m, e, -, -, hcanonical, hlimit, rfl⟩ := exists_parts h
  rw [greatestExponent] at hlimit
  have hsmall : (m : ℚ) < 2 ^ (53 : Int) := by exact_mod_cast hcanonical.small
  have hpow : (2 : ℚ) ^ e ≤ 2 ^ (971 : Int) := zpow_le_zpow_right₀ (by norm_num) (by omega)
  rw [abs_signed]
  calc (m : ℚ) * 2 ^ e < 2 ^ (53 : Int) * 2 ^ e := by gcongr
    _ ≤ 2 ^ (53 : Int) * 2 ^ (971 : Int) := by gcongr
    _ = 2 ^ (1024 : Int) := by
      rw [← zpow_add₀ (by norm_num)]
      norm_num

theorem exact_abs {x : Double} {r : ℚ} (h : x.exact = some r) : x.abs.exact = some |r| := by
  obtain ⟨negative, m, e, hshape, rfl⟩ := exact_eq_some.1 h
  refine exact_eq_some.2 ⟨false, m, e, by rw [shape_abs_eq, hshape]; rfl, ?_⟩
  rw [abs_signed, signed_positive]

/-! Encoding. -/

theorem shape_encode_small {mantissa : Nat} (h : mantissa < 2 ^ 52) :
    (encode false mantissa leastExponent).shape = .finite false mantissa leastExponent := by
  have hbits : (leastExponent - leastExponent).toNat * 2 ^ 52 + mantissa = mantissa := by
    rw [sub_self, Int.toNat_zero, Nat.zero_mul, Nat.zero_add]
  have hfield : mantissa / 2 ^ 52 % 2 ^ 11 = 0 := by omega
  have hfraction : mantissa % 2 ^ 52 = mantissa := Nat.mod_eq_of_lt h
  have hsign : ¬mantissa ≥ 2 ^ 63 := by omega
  rw [shape_encode_bits hbits (by omega)]
  simp only [shapeOfBits, fractionBits, Nat.pow_eq, hfield, hfraction, decide_eq_false hsign]
  rfl

theorem shape_encode_canonical {mantissa : Nat} {exponent : Int}
    (h : Canonical mantissa exponent) (hlimit : exponent ≤ greatestExponent) :
    (encode false mantissa exponent).shape = .finite false mantissa exponent := by
  by_cases hfull : 2 ^ 52 ≤ mantissa
  · obtain ⟨k, rfl⟩ : ∃ k : Nat, exponent = leastExponent + k :=
      (Int.le.dest h.least).imp fun k hk => hk.symm
    rw [leastExponent, greatestExponent] at hlimit
    exact shape_encode hfull h.small (by omega)
  · rw [h.full.resolve_left hfull]
    exact shape_encode_small (by omega)

theorem encode_eq_infinity {mantissa : Nat} {exponent : Int} (h : Canonical mantissa exponent)
    (hlimit : greatestExponent < exponent) : encode false mantissa exponent = infinity false := by
  rw [greatestExponent] at hlimit
  have hfull : 2 ^ 52 ≤ mantissa := h.full.resolve_right (by rw [leastExponent]; omega)
  unfold encode
  simp only
  rw [if_pos (by simp only [fractionBits, leastExponent, Nat.pow_eq]; omega)]

end AnswerKey.Double

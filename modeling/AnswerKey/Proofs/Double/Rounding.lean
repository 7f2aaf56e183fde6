import AnswerKey.Proofs.Double.Canonical

/-! How far the differences and the products of doubles are from the exact ones. -/
namespace AnswerKey.Double

open Float.Model (UnpackedFloat Format totalExponent)
open Float.Model.UnpackedFloat

/-! Shifts. -/

theorem mantissa_shiftRight (em : ExtendedMantissa) (k : Nat) :
    (em >>> k).mantissa = em.mantissa / 2 ^ k := by
  show (k.repeat ExtendedMantissa.shiftRightOne em).mantissa = _
  induction k with
  | zero => exact (Nat.div_one _).symm
  | succ k ih =>
    rw [Nat.repeat, ExtendedMantissa.shiftRightOne, ih, Nat.div_div_eq_div_mul, ← Nat.pow_succ]

theorem roundedMantissa_mem (em : ExtendedMantissa) :
    em.mantissa ≤ em.roundedMantissa ∧ em.roundedMantissa ≤ em.mantissa + 1 := by
  obtain ⟨m, a, b⟩ := em
  have hodd : m % 2 < 2 := Nat.mod_lt m (by decide)
  cases a <;> cases b <;>
    simp only [ExtendedMantissa.roundedMantissa, ExtendedMantissa.accuracy,
      Accuracy.roundToNearestEven] <;> omega

theorem roundedMantissa_shiftRight (mantissa k : Nat) :
    mantissa / 2 ^ k ≤ ((⟨mantissa, false, false⟩ : ExtendedMantissa) >>> k).roundedMantissa ∧
      ((⟨mantissa, false, false⟩ : ExtendedMantissa) >>> k).roundedMantissa ≤
        mantissa / 2 ^ k + 1 := by
  have hmem := roundedMantissa_mem ((⟨mantissa, false, false⟩ : ExtendedMantissa) >>> k)
  rwa [mantissa_shiftRight] at hmem

def targetOf (mantissa : Nat) (exponent : Int) : Int :=
  max (mantissa.log2 + exponent - 52) leastExponent

theorem targetExponent_eq (mantissa : Nat) (exponent : Int) :
    Format.binary64.targetExponent (totalExponent mantissa exponent) =
      targetOf mantissa exponent := by
  have hleast : Format.binary64.minExponent = leastExponent := rfl
  have hbits : (Format.binary64.mantissaBits : Int) = 53 := rfl
  rw [Format.targetExponent, totalExponent, hleast, hbits, targetOf]
  congr 1
  ring

theorem shiftToTargetExponent_eq {mantissa : Nat} {exponent : Int}
    (h : exponent ≤ targetOf mantissa exponent) :
    shiftToTargetExponent .binary64 mantissa exponent .exact =
      ((⟨mantissa, false, false⟩ : ExtendedMantissa) >>>
        (targetOf mantissa exponent - exponent).toNat, targetOf mantissa exponent) := by
  simp only [shiftToTargetExponent, targetExponent_eq, shiftToExponent,
    ExtendedMantissa.ofMantissaAndAccuracy]
  rw [Int.toNat_of_nonneg (by omega), add_sub_cancel]

theorem shiftToTargetExponent_eq_self {mantissa : Nat} {exponent : Int}
    (h : targetOf mantissa exponent ≤ exponent) :
    shiftToTargetExponent .binary64 mantissa exponent .exact =
      (⟨mantissa, false, false⟩, exponent) := by
  simp only [shiftToTargetExponent, targetExponent_eq, shiftToExponent,
    ExtendedMantissa.ofMantissaAndAccuracy]
  rw [Int.toNat_of_nonpos (by omega)]
  exact congrArg (Prod.mk _) (add_zero exponent)

theorem roundWithAccuracy_eq (s : Sign) {mantissa : Nat} {exponent : Int}
    (h : exponent ≤ targetOf mantissa exponent) :
    let rounded := ((⟨mantissa, false, false⟩ : ExtendedMantissa) >>>
      (targetOf mantissa exponent - exponent).toNat).roundedMantissa
    rounded ≤ 2 ^ 53 →
    roundWithAccuracy .binary64 s mantissa exponent .exact =
      if rounded = 2 ^ 53 then ofParts s (2 ^ 52) (targetOf mantissa exponent + 1)
      else ofParts s rounded (targetOf mantissa exponent) := by
  intro rounded hbits
  have hleast : leastExponent ≤ targetOf mantissa exponent := le_max_right _ _
  rw [roundWithAccuracy, shiftToTargetExponent_eq h]
  simp only
  change ofParts s
    (shiftToTargetExponent .binary64 rounded (targetOf mantissa exponent) .exact).1.mantissa
    (shiftToTargetExponent .binary64 rounded (targetOf mantissa exponent) .exact).2 = _
  split_ifs with hcarry
  · have htarget : targetOf rounded (targetOf mantissa exponent) =
        targetOf mantissa exponent + 1 := by
      rw [targetOf, hcarry, Nat.log2_two_pow]
      omega
    rw [shiftToTargetExponent_eq (by omega), htarget, add_sub_cancel_left, hcarry]
    rfl
  · have hlog : rounded.log2 ≤ 52 := by
      by_cases hzero : rounded = 0
      · simp [hzero]
      · have := (Nat.log2_lt hzero).2 (lt_of_le_of_ne hbits hcarry)
        omega
    rw [shiftToTargetExponent_eq_self (by rw [targetOf]; omega)]

theorem canonical_quotient {mantissa : Nat} (hpos : 0 < mantissa) {exponent : Int}
    (h : exponent ≤ targetOf mantissa exponent) :
    Canonical (mantissa / 2 ^ (targetOf mantissa exponent - exponent).toNat)
      (targetOf mantissa exponent) := by
  have hlow : 2 ^ mantissa.log2 ≤ mantissa := Nat.log2_self_le hpos.ne'
  have hhigh : mantissa < 2 ^ (mantissa.log2 + 1) := Nat.lt_log2_self
  have hmax : mantissa.log2 + exponent - 52 ≤ targetOf mantissa exponent := le_max_left _ _
  have hleast : leastExponent ≤ targetOf mantissa exponent := le_max_right _ _
  set k := (targetOf mantissa exponent - exponent).toNat with hk
  refine ⟨?_, hleast, ?_⟩
  · rw [Nat.div_lt_iff_lt_mul (by positivity), ← Nat.pow_add]
    exact hhigh.trans_le (Nat.pow_le_pow_right (by decide) (by omega))
  · by_cases hexponent : targetOf mantissa exponent = leastExponent
    · exact .inr hexponent
    · left
      have htarget : targetOf mantissa exponent = mantissa.log2 + exponent - 52 := by
        rw [targetOf] at hexponent ⊢
        omega
      rw [Nat.le_div_iff_mul_le (by positivity), ← Nat.pow_add]
      exact (Nat.pow_le_pow_right (by decide) (by omega)).trans hlow

theorem two_zpow_target_le {mantissa : Nat} (hpos : 0 < mantissa) (exponent : Int) :
    (2 : ℚ) ^ targetOf mantissa exponent ≤
      mantissa * 2 ^ exponent / 2 ^ 52 + 2 ^ leastExponent := by
  have hlow : (2 : ℚ) ^ mantissa.log2 ≤ mantissa := by
    exact_mod_cast Nat.log2_self_le hpos.ne'
  have hleft : (2 : ℚ) ^ ((mantissa.log2 : Int) + exponent - 52) ≤
      mantissa * 2 ^ exponent / 2 ^ 52 := by
    rw [zpow_sub₀ (by norm_num), zpow_add₀ (by norm_num), zpow_natCast]
    gcongr
    exact le_rfl
  rcases max_choice ((mantissa.log2 : Int) + exponent - 52) leastExponent with hmax | hmax
  · rw [targetOf, hmax]
    exact hleft.trans (le_add_of_nonneg_right (by positivity))
  · rw [targetOf, hmax]
    exact le_add_of_nonneg_left (by positivity)

theorem abs_mul_sub_le {n a b : Nat} (hb : 0 < b) (hlow : a / b ≤ n) (hhigh : n ≤ a / b + 1)
    {r : ℚ} {exponent : Int} (hr : (a : ℚ) / b = r / 2 ^ exponent) :
    |(n : ℚ) * 2 ^ exponent - r| ≤ 2 ^ exponent := by
  have hpos : (0 : ℚ) < 2 ^ exponent := by positivity
  have hfloor : ((a / b : Nat) : ℚ) ≤ a / b := Nat.cast_div_le
  have hceil : (a : ℚ) / b ≤ (a / b : Nat) + 1 := by
    rw [div_le_iff₀ (by exact_mod_cast hb), mul_comm]
    exact_mod_cast (Nat.lt_mul_div_succ a hb).le
  have hlow' : ((a / b : Nat) : ℚ) ≤ n := by exact_mod_cast hlow
  have hhigh' : (n : ℚ) ≤ (a / b : Nat) + 1 := by exact_mod_cast hhigh
  have hone : |(n : ℚ) - a / b| ≤ 1 := abs_le.2 ⟨by linarith, by linarith⟩
  have hscale : (n : ℚ) * 2 ^ exponent - r = (n - a / b) * 2 ^ exponent := by
    rw [hr, sub_mul, div_mul_cancel₀ r hpos.ne']
  rw [hscale, abs_mul, abs_of_pos hpos]
  exact mul_le_of_le_one_left hpos.le hone

/-- Parts that are those of a double near a number, or past the largest one. -/
def RoundedTo (u : UnpackedFloat) (r : ℚ) : Prop :=
  ∃ s n f, Canonical n f ∧ u = ofParts s n f ∧
    |signed (isMinus s) n f - r| ≤ |r| / 2 ^ 52 + 2 ^ leastExponent

theorem roundedTo_of_magnitude (s : Sign) {mantissa n : Nat} {exponent f : Int}
    (hn : Canonical n f)
    (herror : |(n : ℚ) * 2 ^ f - mantissa * 2 ^ exponent| ≤
      mantissa * 2 ^ exponent / 2 ^ 52 + 2 ^ leastExponent) :
    RoundedTo (ofParts s n f) (signed (isMinus s) mantissa exponent) := by
  refine ⟨s, n, f, hn, rfl, ?_⟩
  rw [abs_signed]
  cases isMinus s with
  | false => simpa [signed] using herror
  | true =>
    rw [abs_sub_comm] at herror
    simpa [signed, ← sub_eq_neg_add] using herror

/-- A magnitude is rounded to parts of a double that are off by one unit in the
last place at most. -/
theorem roundedTo_roundWithAccuracy (s : Sign) {mantissa : Nat} (hpos : 0 < mantissa)
    {exponent : Int} (h : exponent ≤ targetOf mantissa exponent) :
    RoundedTo (roundWithAccuracy .binary64 s mantissa exponent .exact)
      (signed (isMinus s) mantissa exponent) := by
  have hquotient := canonical_quotient hpos h
  have hround := roundWithAccuracy_eq s h
  have hulp := two_zpow_target_le hpos exponent
  simp only at hround
  set target := targetOf mantissa exponent
  set k := (target - exponent).toNat with hk
  obtain ⟨hlow, hhigh⟩ := roundedMantissa_shiftRight mantissa k
  set rounded := ((⟨mantissa, false, false⟩ : ExtendedMantissa) >>> k).roundedMantissa
  have hscale : (mantissa : ℚ) / (2 ^ k : Nat) = mantissa * 2 ^ exponent / 2 ^ target := by
    rw [show target = exponent + k by omega, zpow_add₀ (by norm_num), zpow_natCast]
    push_cast
    field_simp
  have herror := (abs_mul_sub_le (by positivity) hlow hhigh hscale).trans hulp
  have hsmall := hquotient.small
  rw [hround (by omega)]
  rcases hquotient.of_rounded hlow hhigh with hcarry | hrounded
  · rw [if_pos hcarry]
    refine roundedTo_of_magnitude s (canonical_carry hquotient.least) ?_
    rwa [carry_value, ← hcarry]
  · rw [if_neg hrounded.small.ne]
    exact roundedTo_of_magnitude s hrounded herror

theorem log2_shiftLeft {mantissa : Nat} (hpos : 0 < mantissa) (k : Nat) :
    (mantissa <<< k).log2 = mantissa.log2 + k := by
  have hlow : 2 ^ mantissa.log2 ≤ mantissa := Nat.log2_self_le hpos.ne'
  have hhigh : mantissa < 2 ^ (mantissa.log2 + 1) := Nat.lt_log2_self
  rw [Nat.shiftLeft_eq, Nat.log2_eq_iff (by positivity), Nat.pow_add, Nat.add_right_comm,
    Nat.pow_add _ _ k]
  exact ⟨Nat.mul_le_mul_right _ hlow, Nat.mul_lt_mul_of_pos_right hhigh (by positivity)⟩

theorem roundedTo_round (s : Sign) {mantissa : Nat} (hpos : 0 < mantissa) (exponent : Int) :
    RoundedTo (UnpackedFloat.round .binary64 s mantissa exponent)
      (signed (isMinus s) mantissa exponent) := by
  set k := (exponent - targetOf mantissa exponent).toNat with hk
  have hpos' : 0 < mantissa <<< k := by
    rw [Nat.shiftLeft_eq]
    positivity
  have htarget : targetOf (mantissa <<< k) (exponent - k) = targetOf mantissa exponent := by
    rw [targetOf, targetOf, log2_shiftLeft hpos]
    congr 1
    omega
  have hscale : ((mantissa <<< k : Nat) : ℚ) * 2 ^ (exponent - k) = mantissa * 2 ^ exponent := by
    rw [Nat.shiftLeft_eq, zpow_sub₀ (by norm_num), zpow_natCast]
    push_cast
    field_simp
  have hround : UnpackedFloat.round .binary64 s mantissa exponent =
      roundWithAccuracy .binary64 s (mantissa <<< k) (exponent - k) .exact := by
    simp only [UnpackedFloat.round, decreaseExponent, targetExponent_eq, ← hk]
  rw [hround, signed, ← hscale]
  exact roundedTo_roundWithAccuracy s hpos' (by omega)

/-! Operations. -/

theorem roundedTo_ofParts (s : Sign) {n : Nat} {f : Int} (h : Canonical n f) :
    RoundedTo (ofParts s n f) (signed (isMinus s) n f) := by
  refine ⟨s, n, f, h, rfl, ?_⟩
  rw [sub_self, abs_zero]
  positivity

theorem roundedTo_zero (s : Sign) : RoundedTo (.zero s) 0 := by
  refine ⟨s, 0, leastExponent, canonical_zero, rfl, ?_⟩
  rw [signed_zero, sub_zero, abs_zero]
  positivity

theorem roundedTo_normalize (mantissa exponent : Int) (zeroSign : Sign) :
    RoundedTo (UnpackedFloat.normalize .binary64 mantissa exponent zeroSign)
      (mantissa * 2 ^ exponent) := by
  rcases lt_trichotomy mantissa 0 with hneg | rfl | hpos
  · have hlt : compare mantissa 0 = .lt := compare_lt_iff_lt.2 hneg
    have hvalue : (mantissa : ℚ) * 2 ^ exponent =
        signed true (-mantissa).toNat exponent := by
      have hcast : (((-mantissa).toNat : Int) : ℚ) = -mantissa := by
        rw [Int.toNat_of_nonneg (by omega)]
        push_cast
        rfl
      simp only [signed, if_true]
      rw [← Int.cast_natCast, hcast]
      ring
    rw [hvalue]
    simp only [UnpackedFloat.normalize, hlt]
    exact roundedTo_round .negative (by omega) exponent
  · rw [Int.cast_zero, zero_mul]
    exact roundedTo_zero zeroSign
  · have hgt : compare mantissa 0 = .gt := compare_gt_iff_gt.2 hpos
    have hvalue : (mantissa : ℚ) * 2 ^ exponent = signed false mantissa.toNat exponent := by
      have hcast : ((mantissa.toNat : Int) : ℚ) = mantissa := by
        rw [Int.toNat_of_nonneg (by omega)]
      rw [signed_positive, ← Int.cast_natCast, hcast]
    rw [hvalue]
    simp only [UnpackedFloat.normalize, hgt]
    exact roundedTo_round .positive (by omega) exponent

theorem isMinus_neg (s : Sign) : isMinus (-s) = !isMinus s := by
  cases s <;> rfl

theorem isMinus_mul (s t : Sign) : isMinus (s * t) = xor (isMinus s) (isMinus t) := by
  cases s <;> cases t <;> rfl

theorem apply_shiftLeft (s : Sign) (mantissa : Nat) {exponent low : Int} (h : low ≤ exponent) :
    ((s.apply (mantissa <<< (exponent - low).toNat : Nat) : Int) : ℚ) * 2 ^ low =
      signed (isMinus s) mantissa exponent := by
  have hscale : ((mantissa <<< (exponent - low).toNat : Nat) : ℚ) * 2 ^ low =
      mantissa * 2 ^ exponent := by
    rw [Nat.shiftLeft_eq]
    push_cast
    rw [mul_assoc, ← zpow_natCast, ← zpow_add₀ (by norm_num), Int.toNat_of_nonneg (by omega),
      sub_add_cancel]
  have happly (a : Nat) : ((s.apply a : Int) : ℚ) = (if isMinus s then -1 else 1) * a := by
    cases s <;> simp [Sign.apply, isMinus]
  rw [happly, signed, ← hscale, mul_assoc]

theorem roundedTo_sub {s t : Sign} {m n : Nat} {e f : Int} (hm : Canonical m e)
    (hn : Canonical n f) :
    RoundedTo (UnpackedFloat.sub .binary64 (ofParts s m e) (ofParts t n f))
      (signed (isMinus s) m e - signed (isMinus t) n f) := by
  by_cases hm0 : m = 0
  · by_cases hn0 : n = 0
    · rw [ofParts, ofParts, dif_pos hm0, dif_pos hn0, hm0, hn0, signed_zero, signed_zero, sub_self,
        UnpackedFloat.sub]
      split
      · exact roundedTo_zero s
      · exact roundedTo_zero .positive
    · have hsub : UnpackedFloat.sub .binary64 (ofParts s m e) (ofParts t n f) =
          ofParts (-t) n f := by
        rw [ofParts, ofParts, ofParts, dif_pos hm0, dif_neg hn0, dif_neg hn0]
        rfl
      rw [hsub, hm0, signed_zero, zero_sub, ← signed_not, ← isMinus_neg]
      exact roundedTo_ofParts (-t) hn
  · by_cases hn0 : n = 0
    · have hsub : UnpackedFloat.sub .binary64 (ofParts s m e) (ofParts t n f) =
          ofParts s m e := by
        rw [ofParts, ofParts, dif_neg hm0, dif_pos hn0]
        rfl
      rw [hsub, hn0, signed_zero, sub_zero]
      exact roundedTo_ofParts s hm
    · have hvalue : signed (isMinus s) m e - signed (isMinus t) n f =
          ((s.apply (m <<< (e - min e f).toNat : Nat) -
            t.apply (n <<< (f - min e f).toNat : Nat) : Int) : ℚ) * 2 ^ min e f := by
        rw [Int.cast_sub, sub_mul, apply_shiftLeft s m (min_le_left e f),
          apply_shiftLeft t n (min_le_right e f)]
      rw [hvalue, ofParts, ofParts, dif_neg hm0, dif_neg hn0]
      exact roundedTo_normalize _ _ _

/-- A product has 53 bits at least unless both factors are among the smallest. -/
theorem le_targetOf_mul {m n : Nat} {e f : Int} (hm : Canonical m e) (hn : Canonical n f)
    (hm0 : 0 < m) (hn0 : 0 < n) : e + f ≤ targetOf (m * n) (e + f) := by
  have hproduct : m * n ≠ 0 := (Nat.mul_pos hm0 hn0).ne'
  have hlog (h : 2 ^ 52 ≤ m * n) : 52 ≤ (m * n).log2 := (Nat.le_log2 hproduct).2 h
  rw [targetOf]
  rcases hm.full with hfull | he
  · have := hlog (hfull.trans (Nat.le_mul_of_pos_right m hn0))
    omega
  · rcases hn.full with hfull | hf
    · have := hlog (hfull.trans (Nat.le_mul_of_pos_left n hm0))
      omega
    · rw [leastExponent] at *
      omega

theorem roundedTo_mul {s t : Sign} {m n : Nat} {e f : Int} (hm : Canonical m e)
    (hn : Canonical n f) :
    RoundedTo (UnpackedFloat.mul .binary64 (ofParts s m e) (ofParts t n f))
      (signed (isMinus s) m e * signed (isMinus t) n f) := by
  by_cases hm0 : m = 0
  · rw [hm0, signed_zero, zero_mul, ofParts, dif_pos rfl, ofParts]
    split
    · exact roundedTo_zero (s * t)
    · exact roundedTo_zero (s * t)
  · by_cases hn0 : n = 0
    · rw [hn0, signed_zero, mul_zero, ofParts, ofParts, dif_neg hm0, dif_pos rfl]
      exact roundedTo_zero (s * t)
    · have htarget := le_targetOf_mul hm hn (by omega) (by omega)
      rw [← signed_mul, ← isMinus_mul, ofParts, ofParts, dif_neg hm0, dif_neg hn0]
      exact roundedTo_roundWithAccuracy (s * t) (Nat.mul_pos (by omega) (by omega)) htarget

theorem lt_of_canonical {m : Nat} {e : Int} (hm : Canonical m e)
    (h : (m : ℚ) * 2 ^ e < 2 ^ (1024 : Int)) : e ≤ greatestExponent := by
  by_contra hlarge
  rw [greatestExponent, not_le] at hlarge
  have hfull : 2 ^ 52 ≤ m := hm.full.resolve_right (by rw [leastExponent]; omega)
  have hmantissa : (2 : ℚ) ^ (52 : Int) ≤ m := by exact_mod_cast hfull
  have hpow : (2 : ℚ) ^ (972 : Int) ≤ 2 ^ e := zpow_le_zpow_right₀ (by norm_num) (by omega)
  have hproduct : (2 : ℚ) ^ (1024 : Int) ≤ m * 2 ^ e := by
    calc (2 : ℚ) ^ (1024 : Int) = 2 ^ (52 : Int) * 2 ^ (972 : Int) := by
          rw [← zpow_add₀ (by norm_num)]
          norm_num
      _ ≤ m * 2 ^ e := by gcongr
  linarith

theorem exponent_le_of_near {s : Bool} {m : Nat} {e : Int} {r : ℚ} (hm : Canonical m e)
    (near : |signed s m e - r| ≤ |r| / 2 ^ 52 + 2 ^ leastExponent) (hr : |r| ≤ 2 ^ (1023 : Int)) :
    e ≤ greatestExponent := by
  have htiny : (2 : ℚ) ^ leastExponent ≤ 1 := zpow_le_one_of_nonpos₀ (by norm_num) (by decide)
  have hfour : (4 : ℚ) ≤ 2 ^ (1023 : Int) :=
    (by norm_num : (4 : ℚ) = 2 ^ (2 : Int)).trans_le
      (zpow_le_zpow_right₀ (by norm_num) (by norm_num))
  have hdouble : (2 : ℚ) ^ (1024 : Int) = 2 ^ (1023 : Int) * 2 := by
    rw [← zpow_add_one₀ (by norm_num)]
    norm_num
  have hbound : |signed s m e| ≤ |r| + |signed s m e - r| := by
    have := abs_add_le r (signed s m e - r)
    rwa [add_sub_cancel] at this
  refine lt_of_canonical hm ?_
  rw [← abs_signed s, hdouble]
  calc |signed s m e| ≤ |r| + (|r| / 2 ^ 52 + 2 ^ leastExponent) := hbound.trans (by gcongr)
    _ ≤ 2 ^ (1023 : Int) + (2 ^ (1023 : Int) / 2 ^ 52 + 1) := by gcongr
    _ < 2 ^ (1023 : Int) * 2 := by
      generalize (2 : ℚ) ^ (1023 : Int) = top at hfour
      linarith

theorem exact_ofResult {u : UnpackedFloat} {r : ℚ} (h : RoundedTo u r) :
    (ofResult (.ofModel (.pack u))).isNaN = false ∧
      (∀ d, (ofResult (.ofModel (.pack u))).exact = some d →
        |d - r| ≤ |r| / 2 ^ 52 + 2 ^ leastExponent) ∧
      (|r| ≤ 2 ^ (1023 : Int) → ∃ d, (ofResult (.ofModel (.pack u))).exact = some d) := by
  obtain ⟨s, n, f, hn, rfl, herror⟩ := h
  have hnan := isNaN_packed s hn
  have hshape := shape_packed s hn
  rw [ofResult, hnan, if_neg Bool.false_ne_true]
  refine ⟨hnan, fun d hd => ?_, fun hr => ?_⟩
  · obtain ⟨negative, m, e, hm, rfl⟩ := exact_eq_some.1 hd
    rw [hshape] at hm
    split at hm
    · cases hm
      exact herror
    · cases hm
  · rw [if_pos (exponent_le_of_near hn herror hr)] at hshape
    exact ⟨_, exact_eq_some.2 ⟨_, _, _, hshape, rfl⟩⟩

theorem exact_sub {x y : Double} {r s : ℚ} (hx : x.exact = some r) (hy : y.exact = some s) :
    (x - y).isNaN = false ∧ ∀ d, (x - y).exact = some d →
      |d - (r - s)| ≤ |r - s| / 2 ^ 52 + 2 ^ leastExponent := by
  obtain ⟨f, t, m, e, rfl, hf, hm, -, rfl⟩ := exists_parts hx
  obtain ⟨g, t', n, e', rfl, hg, hn, -, rfl⟩ := exists_parts hy
  have hrounded := roundedTo_sub (s := t) (t := t') hm hn
  rw [← hf, ← hg] at hrounded
  obtain ⟨hnan, hnear, -⟩ := exact_ofResult hrounded
  exact ⟨hnan, hnear⟩

theorem exact_mul {x y : Double} {r s : ℚ} (hx : x.exact = some r) (hy : y.exact = some s)
    (h : |r * s| ≤ 2 ^ (1023 : Int)) :
    ∃ d, (x * y).exact = some d ∧ |d - r * s| ≤ |r * s| / 2 ^ 52 + 2 ^ leastExponent := by
  obtain ⟨f, t, m, e, rfl, hf, hm, -, rfl⟩ := exists_parts hx
  obtain ⟨g, t', n, e', rfl, hg, hn, -, rfl⟩ := exists_parts hy
  have hrounded := roundedTo_mul (s := t) (t := t') hm hn
  rw [← hf, ← hg] at hrounded
  obtain ⟨-, hnear, hfinite⟩ := exact_ofResult hrounded
  obtain ⟨d, hd⟩ := hfinite h
  exact ⟨d, hd, hnear d hd⟩

end AnswerKey.Double

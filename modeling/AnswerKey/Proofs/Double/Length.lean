import AnswerKey.Double.Hypot
import AnswerKey.Proofs.Decimal.Leading
import AnswerKey.Proofs.Double.Rounding

/-! How far the length of a vector of two doubles is from the exact one. -/
namespace AnswerKey.Double

/-! The double nearest to a fraction. -/

theorem scaled_ratio {den : Nat} (hden : 0 < den) (num : Nat) (exponent : Int) :
    0 < (scaled num den exponent).2 ∧
      ((scaled num den exponent).1 : ℚ) / (scaled num den exponent).2 =
        num / den / 2 ^ exponent := by
  unfold scaled
  split
  · next hexponent =>
    refine ⟨Nat.mul_pos hden (Nat.two_pow_pos _), ?_⟩
    have hpow : ((Nat.pow 2 exponent.toNat : Nat) : ℚ) = 2 ^ exponent := by
      rw [Nat.pow_eq, Nat.cast_pow, ← zpow_natCast, Int.toNat_of_nonneg hexponent]
      rfl
    simp only [Nat.cast_mul, hpow]
    rw [div_div]
  · next hexponent =>
    refine ⟨hden, ?_⟩
    have hpow : ((Nat.pow 2 (-exponent).toNat : Nat) : ℚ) = (2 ^ exponent)⁻¹ := by
      rw [Nat.pow_eq, Nat.cast_pow, ← zpow_natCast, Int.toNat_of_nonneg (by omega), ← zpow_neg]
      rfl
    simp only [Nat.cast_mul, hpow]
    ring

theorem le_scaled_iff {den : Nat} (hden : 0 < den) (num k : Nat) (exponent : Int) :
    k ≤ (scaled num den exponent).1 / (scaled num den exponent).2 ↔
      (k : ℚ) * 2 ^ exponent ≤ num / den := by
  obtain ⟨hpos, hratio⟩ := scaled_ratio hden num exponent
  rw [← le_div_iff₀ (by positivity), ← hratio, le_div_iff₀ (by exact_mod_cast hpos),
    Nat.le_div_iff_mul_le hpos]
  exact_mod_cast Iff.rfl

theorem fraction_bounds {num den : Nat} (hnum : 0 < num) (hden : 0 < den) :
    (2 : ℚ) ^ ((num.log2 : Int) - den.log2 - 1) ≤ num / den ∧
      (num : ℚ) / den < 2 ^ ((num.log2 : Int) - den.log2 + 1) := by
  have hnumlow : (2 : ℚ) ^ (num.log2 : Int) ≤ num := by
    exact_mod_cast Nat.log2_self_le hnum.ne'
  have hnumhigh : (num : ℚ) < 2 ^ ((num.log2 : Int) + 1) := by
    exact_mod_cast Nat.lt_log2_self (n := num)
  have hdenlow : (2 : ℚ) ^ (den.log2 : Int) ≤ den := by
    exact_mod_cast Nat.log2_self_le hden.ne'
  have hdenhigh : (den : ℚ) < 2 ^ ((den.log2 : Int) + 1) := by
    exact_mod_cast Nat.lt_log2_self (n := den)
  have hpos : (0 : ℚ) < den := by exact_mod_cast hden
  constructor
  · rw [le_div_iff₀ hpos]
    calc (2 : ℚ) ^ ((num.log2 : Int) - den.log2 - 1) * den
        ≤ 2 ^ ((num.log2 : Int) - den.log2 - 1) * 2 ^ ((den.log2 : Int) + 1) := by gcongr
      _ = 2 ^ (num.log2 : Int) := by
        rw [← zpow_add₀ (by norm_num)]
        congr 1
        ring
      _ ≤ num := hnumlow
  · rw [div_lt_iff₀ hpos]
    calc (num : ℚ) < 2 ^ ((num.log2 : Int) + 1) := hnumhigh
      _ = 2 ^ ((num.log2 : Int) - den.log2 + 1) * 2 ^ (den.log2 : Int) := by
        rw [← zpow_add₀ (by norm_num)]
        congr 1
        ring
      _ ≤ 2 ^ ((num.log2 : Int) - den.log2 + 1) * den := by gcongr

theorem exists_exponentOf {num den : Nat} (hnum : 0 < num) (hden : 0 < den) :
    ∃ e : Int, exponentOf num den = max leastExponent e ∧
      (2 : ℚ) ^ 52 * 2 ^ e ≤ num / den ∧ (num : ℚ) / den < 2 ^ 53 * 2 ^ e := by
  obtain ⟨hlow, hhigh⟩ := fraction_bounds hnum hden
  have hpower (k : Nat) (e : Int) : (2 : ℚ) ^ k * 2 ^ e = 2 ^ (k + e) := by
    rw [zpow_add₀ (by norm_num), zpow_natCast]
  have hquotient := le_scaled_iff hden num (2 ^ 52) ((num.log2 : Int) - den.log2 - fractionBits)
  rw [Nat.cast_pow, Nat.cast_ofNat] at hquotient
  unfold exponentOf
  simp only [Nat.pow_eq]
  rw [fractionBits] at *
  split
  · next hsmall =>
    refine ⟨_, rfl, ?_, ?_⟩
    · rw [hpower]
      refine (zpow_le_zpow_right₀ (by norm_num) ?_).trans hlow
      omega
    · have hless := not_le.1 (mt hquotient.2 (Nat.not_le.2 hsmall))
      refine hless.trans_le (le_of_eq ?_)
      rw [hpower, hpower]
      congr 1
      omega
  · next hlarge =>
    refine ⟨_, rfl, hquotient.1 (Nat.not_lt.1 hlarge), ?_⟩
    rw [hpower]
    refine hhigh.trans_le (zpow_le_zpow_right₀ (by norm_num) ?_)
    omega

theorem canonical_scaled {num den : Nat} (hnum : 0 < num) (hden : 0 < den) :
    Canonical ((scaled num den (exponentOf num den)).1 / (scaled num den (exponentOf num den)).2)
        (exponentOf num den) ∧
      (2 : ℚ) ^ exponentOf num den ≤ num / den / 2 ^ 52 + 2 ^ leastExponent := by
  obtain ⟨e, hexponent, hlow, hhigh⟩ := exists_exponentOf hnum hden
  have hsmall := le_scaled_iff hden num (2 ^ 53) (exponentOf num den)
  have hfull := le_scaled_iff hden num (2 ^ 52) (exponentOf num den)
  rw [Nat.cast_pow, Nat.cast_ofNat] at hsmall hfull
  have hfraction : (0 : ℚ) ≤ num / den / 2 ^ 52 := by positivity
  refine ⟨⟨?_, hexponent ▸ le_max_left _ _, ?_⟩, ?_⟩
  · refine Nat.lt_of_not_le (mt hsmall.1 (not_le.2 (hhigh.trans_le ?_)))
    rw [hexponent]
    gcongr
    · norm_num
    · exact le_max_right _ _
  · rcases max_choice leastExponent e with hmax | hmax
    · exact .inr (hexponent.trans hmax)
    · left
      rw [hexponent, hmax] at hfull ⊢
      exact hfull.2 hlow
  · rw [hexponent]
    rcases max_choice leastExponent e with hmax | hmax
    · rw [hmax]
      exact le_add_of_nonneg_left hfraction
    · rw [hmax]
      refine le_add_of_le_of_nonneg ?_ (by positivity)
      rw [le_div_iff₀ (by positivity), mul_comm]
      exact hlow

theorem roundQuotient_le (tie : Tie) (num den : Nat) :
    roundQuotient tie num den ≤ num / den + 1 := by
  unfold roundQuotient
  simp only
  split
  · exact Nat.le_succ _
  · split
    · exact Nat.le_refl _
    · split
      · exact Nat.le_refl _
      · split <;> omega

theorem encode_carry {exponent : Int} (h : leastExponent ≤ exponent) :
    encode false (2 ^ 53) exponent = encode false (2 ^ 52) (exponent + 1) := by
  have hmagnitude : (exponent - leastExponent).toNat * Nat.pow 2 fractionBits + 2 ^ 53 =
      (exponent + 1 - leastExponent).toNat * Nat.pow 2 fractionBits + 2 ^ 52 := by
    simp only [fractionBits, Nat.pow_eq]
    omega
  simp only [encode, hmagnitude]

theorem exact_encode {mantissa : Nat} {exponent : Int} (h : Canonical mantissa exponent) :
    encode false mantissa exponent = infinity false ∨
      (encode false mantissa exponent).exact = some ((mantissa : ℚ) * 2 ^ exponent) := by
  by_cases hlimit : exponent ≤ greatestExponent
  · right
    refine exact_eq_some.2 ⟨_, _, _, shape_encode_canonical h hlimit, ?_⟩
    rw [signed_positive]
  · exact .inl (encode_eq_infinity h (not_le.1 hlimit))

/-- The double nearest to a fraction is infinity, or off by one unit in the last
place at most. -/
theorem exact_nearest {num den : Nat} (hnum : 0 < num) (hden : 0 < den) :
    nearest false num den = infinity false ∨ ∃ d, (nearest false num den).exact = some d ∧
      |d - num / den| ≤ num / den / 2 ^ 52 + 2 ^ leastExponent := by
  obtain ⟨hquotient, hulp⟩ := canonical_scaled hnum hden
  obtain ⟨hpos, hratio⟩ := scaled_ratio hden num (exponentOf num den)
  have hnearest : nearest false num den = encode false
      (roundQuotient .even (scaled num den (exponentOf num den)).1
        (scaled num den (exponentOf num den)).2) (exponentOf num den) := by
    rw [nearest, if_neg hnum.ne']
  have hlow := Decimal.le_roundQuotient .even (scaled num den (exponentOf num den)).1
    (scaled num den (exponentOf num den)).2
  have hhigh := roundQuotient_le .even (scaled num den (exponentOf num den)).1
    (scaled num den (exponentOf num den)).2
  have herror := (abs_mul_sub_le hpos hlow hhigh hratio).trans hulp
  rw [hnearest]
  generalize roundQuotient .even (scaled num den (exponentOf num den)).1
    (scaled num den (exponentOf num den)).2 = rounded at *
  rcases hquotient.of_rounded hlow hhigh with rfl | hrounded
  · rw [← carry_value] at herror
    rw [encode_carry hquotient.least]
    refine (exact_encode (canonical_carry hquotient.least)).imp_right fun hexact => ?_
    exact ⟨_, hexact, herror⟩
  · exact (exact_encode hrounded).imp_right fun hexact => ⟨_, hexact, herror⟩

/-! Integer roots. -/

theorem sqrt_le_newton {n x : Nat} (h : n.sqrt ≤ x) : n.sqrt ≤ (x + n / x) / 2 := by
  obtain ⟨t, rfl⟩ := Nat.exists_eq_add_of_le h
  by_cases hzero : n.sqrt + t = 0
  · exact (Nat.le_of_eq (by omega : n.sqrt = 0)).trans (Nat.zero_le _)
  · have hsquare : (n.sqrt - t) * (n.sqrt + t) ≤ n := by
      rw [Nat.mul_comm, ← Nat.mul_self_sub_mul_self_eq]
      exact (Nat.sub_le _ _).trans (Nat.sqrt_le n)
    have hquotient : n.sqrt - t ≤ n / (n.sqrt + t) :=
      (Nat.le_div_iff_mul_le (Nat.pos_of_ne_zero hzero)).2 hsquare
    omega

theorem div_le_sqrt {n x : Nat} (h : n.sqrt < x) : n / x ≤ n.sqrt := by
  refine Nat.le_of_lt_succ (Nat.div_lt_of_lt_mul ?_)
  exact (Nat.lt_succ_sqrt n).trans_le (Nat.mul_le_mul_right _ h)

/-- Each step halves what the root is exceeded by, so that the fuel is enough. -/
theorem sqrtStep_eq {n fuel x : Nat} (h : n.sqrt ≤ x) (hfuel : x - n.sqrt < 2 ^ fuel) :
    sqrtStep n fuel x = n.sqrt := by
  induction fuel generalizing x with
  | zero =>
    rw [sqrtStep]
    omega
  | succ fuel ih =>
    have hstep := sqrt_le_newton h
    rw [Nat.pow_succ] at hfuel
    simp only [sqrtStep]
    split
    · next hless =>
      refine ih hstep ?_
      have hexceeds : n.sqrt < x := by omega
      have hdiv := div_le_sqrt hexceeds
      omega
    · next hnotless =>
      by_contra hne
      have hdiv := div_le_sqrt (lt_of_le_of_ne h (Ne.symm hne))
      omega

theorem integerSqrt_eq (n : Nat) : integerSqrt n = n.sqrt := by
  have hbits : n < 2 ^ (n.log2 / 2 + 1) * 2 ^ (n.log2 / 2 + 1) := by
    rw [← Nat.pow_add]
    exact Nat.lt_log2_self.trans_le (Nat.pow_le_pow_right (by decide) (by omega))
  refine sqrtStep_eq (Nat.sqrt_lt.2 hbits).le ((Nat.sub_le _ _).trans_lt ?_)
  exact Nat.pow_lt_pow_right (by decide) (by omega)

/-- Twice the root, to the next integer, with an odd one where it is not exact. -/
theorem abs_wide_sub_le (m : Nat) :
    |((2 * m.sqrt + (if m.sqrt * m.sqrt = m then 0 else 1) : Nat) : ℝ) - 2 * √m| ≤ 1 := by
  have hlow : (m.sqrt : ℝ) ≤ √m := Real.nat_sqrt_le_real_sqrt
  have hhigh : √(m : ℝ) < m.sqrt + 1 := Real.real_sqrt_lt_nat_sqrt_succ
  split
  · next hexact =>
    have hroot : √(m : ℝ) = m.sqrt := by
      rw [Real.sqrt_eq_iff_mul_self_eq (by positivity) (by positivity)]
      exact_mod_cast hexact.symm
    rw [hroot]
    simp
  · push_cast
    exact abs_le.2 ⟨by linarith, by linarith⟩

theorem fractionOf_ratio (mantissa : Nat) (exponent : Int) :
    0 < (fractionOf mantissa exponent).2 ∧
      ((fractionOf mantissa exponent).1 : ℚ) / (fractionOf mantissa exponent).2 =
        mantissa * 2 ^ exponent := by
  unfold fractionOf
  split
  · next hexponent =>
    refine ⟨Nat.one_pos, ?_⟩
    rw [Nat.pow_eq, Nat.cast_mul, Nat.cast_pow, ← zpow_natCast, Int.toNat_of_nonneg hexponent]
    simp
  · next hexponent =>
    refine ⟨Nat.two_pow_pos _, ?_⟩
    rw [Nat.pow_eq, Nat.cast_pow, ← zpow_natCast, Int.toNat_of_nonneg (by omega), zpow_neg,
      div_inv_eq_mul]
    simp

theorem abs_sub_le_real {d r size : ℚ} (h : |d - r| ≤ size / 2 ^ 52 + 2 ^ leastExponent) :
    |(d : ℝ) - r| ≤ size / 2 ^ 52 + 2 ^ leastExponent := by
  have hcast := (Rat.cast_le (K := ℝ)).2 h
  push_cast at hcast
  exact hcast

theorem sqrt_scaled (n : Nat) : √((n * Nat.pow 4 64 : Nat) : ℝ) = √n * 2 ^ 64 := by
  have hpow : ((n * Nat.pow 4 64 : Nat) : ℝ) = n * (2 ^ 64 * 2 ^ 64) := by
    rw [Nat.pow_eq]
    push_cast
    norm_num
  rw [hpow, Real.sqrt_mul (by positivity), Real.sqrt_mul_self (by positivity)]

theorem abs_scaled_sub_le {n wide : Nat} (hn : 0 < n) (exponent : Int)
    (h : |(wide : ℝ) - 2 * √((n * Nat.pow 4 64 : Nat) : ℝ)| ≤ 1) :
    |((wide * 2 ^ (exponent - (64 : Nat) - 1) : ℚ) : ℝ) - √n * 2 ^ exponent| ≤
      √n * 2 ^ exponent / 2 ^ 65 := by
  have hscale : ((wide * 2 ^ (exponent - (64 : Nat) - 1) : ℚ) : ℝ) - √n * 2 ^ exponent =
      (wide - 2 * √((n * Nat.pow 4 64 : Nat) : ℝ)) * (2 ^ exponent / 2 ^ 65) := by
    rw [sqrt_scaled, zpow_sub_one₀ (by norm_num), zpow_sub₀ (by norm_num), zpow_natCast]
    push_cast
    ring
  have hone : (1 : ℝ) ≤ √n := Real.one_le_sqrt.2 (by exact_mod_cast hn)
  rw [hscale, abs_mul, abs_of_pos (by positivity : (0 : ℝ) < 2 ^ exponent / 2 ^ 65)]
  calc |(wide : ℝ) - 2 * √((n * Nat.pow 4 64 : Nat) : ℝ)| * (2 ^ exponent / 2 ^ 65)
      ≤ 1 * (2 ^ exponent / 2 ^ 65) := by gcongr
    _ ≤ √n * (2 ^ exponent / 2 ^ 65) := by gcongr
    _ = √n * 2 ^ exponent / 2 ^ 65 := by rw [mul_div_assoc]

theorem exact_nearestSqrt {n : Nat} (hn : 0 < n) (exponent : Int) :
    nearestSqrt n exponent = infinity false ∨
      ∃ d, (nearestSqrt n exponent).exact = some d ∧
        |(d : ℝ) - √n * 2 ^ exponent| ≤ √n * 2 ^ exponent / 2 ^ 51 + 2 ^ leastExponent := by
  set m := n * Nat.pow 4 64 with hm
  set wide := 2 * m.sqrt + (if m.sqrt * m.sqrt = m then 0 else 1) with hwide
  have hnearest : nearestSqrt n exponent = nearest false
      (fractionOf wide (exponent - (64 : Nat) - 1)).1
      (fractionOf wide (exponent - (64 : Nat) - 1)).2 := by
    simp only [nearestSqrt, integerSqrt_eq, ← hm, ← hwide]
  obtain ⟨hden, hratio⟩ := fractionOf_ratio wide (exponent - (64 : Nat) - 1)
  set value : ℚ := wide * 2 ^ (exponent - (64 : Nat) - 1) with hvalue
  have hpos : 0 < wide := by
    have hsqrt : 0 < m.sqrt := Nat.sqrt_pos.2 (Nat.mul_pos hn (by decide))
    omega
  have hnum : 0 < (fractionOf wide (exponent - (64 : Nat) - 1)).1 := by
    refine Nat.pos_of_ne_zero fun hzero => ?_
    have hratio_pos : 0 < value := by positivity
    rw [← hratio, hzero, Nat.cast_zero, zero_div] at hratio_pos
    exact lt_irrefl _ hratio_pos
  have hclose : |(value : ℝ) - √n * 2 ^ exponent| ≤ √n * 2 ^ exponent / 2 ^ 65 :=
    abs_scaled_sub_le hn exponent (abs_wide_sub_le m)
  rw [hnearest]
  refine (exact_nearest hnum hden).imp_right ?_
  rintro ⟨d, hd, herror⟩
  rw [hratio] at herror
  refine ⟨d, hd, ?_⟩
  have herror' := abs_sub_le_real herror
  have hlength_nonneg : 0 ≤ √(n : ℝ) * 2 ^ exponent := by positivity
  have htriangle := abs_sub_le (d : ℝ) value (√n * 2 ^ exponent)
  have hupper := (abs_le.1 hclose).2
  linarith

/-! Lengths. -/

theorem shift_value (mantissa : Nat) {exponent low : Int} (h : low ≤ exponent) :
    ((mantissa * Nat.pow 2 (exponent - low).toNat : Nat) : ℝ) * 2 ^ low =
      mantissa * 2 ^ exponent := by
  rw [Nat.pow_eq]
  push_cast
  rw [mul_assoc, ← zpow_natCast, ← zpow_add₀ (by norm_num), Int.toNat_of_nonneg (by omega),
    sub_add_cancel]

theorem abs_signed_real (negative : Bool) (mantissa : Nat) (exponent : Int) :
    |(signed negative mantissa exponent : ℝ)| = mantissa * 2 ^ exponent := by
  rw [← Rat.cast_abs, abs_signed]
  push_cast
  rfl

/-- The length of a vector of finite doubles is infinite, or off by two units in
the last place at most. -/
theorem exact_hypot {x y : Double} {r s : ℚ} (hx : x.exact = some r) (hy : y.exact = some s) :
    hypot x y = infinity false ∨ ∃ d, (hypot x y).exact = some d ∧
      |(d : ℝ) - √((r : ℝ) ^ 2 + (s : ℝ) ^ 2)| ≤
        √((r : ℝ) ^ 2 + (s : ℝ) ^ 2) / 2 ^ 51 + 2 ^ leastExponent := by
  obtain ⟨negative, m, e, hshape, hr⟩ := exact_eq_some.1 hx
  obtain ⟨negative', n, f, hshape', hs⟩ := exact_eq_some.1 hy
  have hleft : |(r : ℝ)| = (m * Nat.pow 2 (e - min e f).toNat : Nat) * 2 ^ min e f := by
    rw [hr, abs_signed_real, shift_value m (min_le_left e f)]
  have hright : |(s : ℝ)| = (n * Nat.pow 2 (f - min e f).toNat : Nat) * 2 ^ min e f := by
    rw [hs, abs_signed_real, shift_value n (min_le_right e f)]
  have hself (t : ℚ) :
      |((|t| : ℚ) : ℝ) - (|(t : ℝ)|)| ≤ |(t : ℝ)| / 2 ^ 51 + 2 ^ leastExponent := by
    push_cast
    rw [sub_self, abs_zero]
    positivity
  rw [← sq_abs (r : ℝ), ← sq_abs (s : ℝ), hypot, hshape, hshape']
  simp only
  generalize m * Nat.pow 2 (e - min e f).toNat = a at *
  generalize n * Nat.pow 2 (f - min e f).toNat = b at *
  split_ifs with hb ha
  · right
    refine ⟨|r|, exact_abs hx, ?_⟩
    rw [hright, hb, Nat.cast_zero, zero_mul, zero_pow two_ne_zero, add_zero,
      Real.sqrt_sq (abs_nonneg _)]
    exact hself r
  · right
    refine ⟨|s|, exact_abs hy, ?_⟩
    rw [hleft, ha, Nat.cast_zero, zero_mul, zero_pow two_ne_zero, zero_add,
      Real.sqrt_sq (abs_nonneg _)]
    exact hself s
  · have hsquares : |(r : ℝ)| ^ 2 + |(s : ℝ)| ^ 2 =
        ((a * a + b * b : Nat) : ℝ) * (2 ^ min e f * 2 ^ min e f) := by
      rw [hleft, hright]
      push_cast
      ring
    rw [hsquares, Real.sqrt_mul (by positivity), Real.sqrt_mul_self (by positivity)]
    exact exact_nearestSqrt (by positivity) (min e f)

theorem shape_infinity_of_sign (negative : Bool) :
    (infinity negative).shape = .infinite negative := by
  cases negative <;> decide +kernel

theorem hypot_eq_infinity {x y : Double} (hx : x.isNaN = false) (hy : y.isNaN = false)
    (h : x.isFinite = false ∨ y.isFinite = false) : hypot x y = infinity false := by
  rcases h with h | h
  · obtain ⟨negative, rfl⟩ := exists_eq_infinity hx h
    rw [hypot, shape_infinity_of_sign]
  · obtain ⟨negative, rfl⟩ := exists_eq_infinity hy h
    rw [hypot, shape_infinity_of_sign]
    cases x.shape <;> rfl

end AnswerKey.Double

import AnswerKey.Proofs.Double.Length
import AnswerKey.Proofs.Double.Order
import AnswerKey.Value

/-! How far apart the exact values are where two values are found equal up to a
tolerance, and where the test says nothing about that. -/
namespace AnswerKey

open Float.Model (UnpackedFloat)
open Float.Model.UnpackedFloat (isNaN_iff)

namespace Double

theorem exact_one : (1 : Double).exact = some 1 := by
  refine exact_eq_some.2 ⟨false, 2 ^ 52, -52, by decide +kernel, ?_⟩
  rw [signed_positive]
  norm_num

theorem exact_tolerance {t : Double} (hlow : (1e-300 : Double) ≤ t) (hhigh : t ≤ (0.25 : Double)) :
    ∃ τ, t.exact = some τ ∧ (2 : ℚ) ^ (-997 : Int) ≤ τ ∧ τ ≤ 1 / 4 := by
  have hleast : (1e-300 : Double).exact = some (6032057205060441 * 2 ^ (-1049 : Int)) := by
    refine exact_eq_some.2 ⟨false, 6032057205060441, -1049, by decide +kernel, ?_⟩
    rw [signed_positive, Nat.cast_ofNat]
  have hgreatest : (0.25 : Double).exact = some (1 / 4) := by
    refine exact_eq_some.2 ⟨false, 2 ^ 52, -54, by decide +kernel, ?_⟩
    rw [signed_positive]
    norm_num
  obtain ⟨τ, hτ⟩ := isFinite_iff_exact.1
    (isFinite_of_le_of_le (isFinite_of_exact hleast) (isFinite_of_exact hgreatest) hlow hhigh)
  refine ⟨τ, hτ, ?_, exact_le_exact hhigh hτ hgreatest⟩
  refine le_trans ?_ (exact_le_exact hlow hleast hτ)
  calc (2 : ℚ) ^ (-997 : Int) = 2 ^ (52 : Int) * 2 ^ (-1049 : Int) := by
        rw [← zpow_add₀ (by norm_num)]
        norm_num
    _ ≤ 6032057205060441 * 2 ^ (-1049 : Int) := by
      gcongr
      norm_num

theorem mul_infinity {t : Double} {τ : ℚ} (ht : t.exact = some τ) (hpos : 0 < τ) :
    t * infinity false = infinity false := by
  obtain ⟨f, s, m, e, rfl, hf, -, -, rfl⟩ := exists_parts ht
  have hm : m ≠ 0 := by
    rintro rfl
    rw [signed_zero] at hpos
    exact lt_irrefl _ hpos
  cases s with
  | negative =>
    have hmagnitude : (0 : ℚ) ≤ signed false m e := by
      rw [signed_positive]
      positivity
    have hnonpos : signed true m e ≤ 0 := by
      rw [← Bool.not_false, signed_not]
      exact neg_nonpos.2 hmagnitude
    exact absurd hpos (not_lt.2 hnonpos)
  | positive =>
    have hproduct : number f * infinity false = ofResult (.ofModel (.pack
        (UnpackedFloat.mul .binary64 f.toModel.unpack (.infinity .positive)))) := by
      rw [← unpack_infinity.1]
      rfl
    have hmul : UnpackedFloat.mul .binary64 (ofParts .positive m e) (.infinity .positive) =
        .infinity .positive := by
      rw [ofParts, dif_neg hm]
      rfl
    rw [hproduct, hf, hmul]
    rfl

end Double

namespace Value

noncomputable def exact (v : Value) : Option ℂ :=
  match v.toComplex.re.exact, v.toComplex.im.exact with
  | some x, some y => some ⟨x, y⟩
  | _, _ => none

theorem exact_eq_some {v : Value} {z : ℂ} : v.exact = some z ↔
    ∃ x y : ℚ, v.toComplex.re.exact = some x ∧ v.toComplex.im.exact = some y ∧ z = ⟨x, y⟩ := by
  rw [exact]
  cases v.toComplex.re.exact <;> cases v.toComplex.im.exact <;> simp [eq_comm]

theorem exact_zero : (0 : Double).exact = some 0 :=
  Double.exact_eq_some.2
    ⟨false, 0, Double.leastExponent, by decide +kernel, (Double.signed_zero _ _).symm⟩

theorem exists_exact {v : Value} (h : v.isFinite = true) : ∃ z, v.exact = some z := by
  have hparts : v.toComplex.re.isFinite = true ∧ v.toComplex.im.isFinite = true := by
    cases v with
    | real x => exact ⟨h, Double.isFinite_of_exact exact_zero⟩
    | complex z =>
      show z.re.isFinite = true ∧ z.im.isFinite = true
      simpa [isFinite, Complex.isFinite] using h
  obtain ⟨x, hx⟩ := Double.isFinite_iff_exact.1 hparts.1
  obtain ⟨y, hy⟩ := Double.isFinite_iff_exact.1 hparts.2
  exact ⟨_, exact_eq_some.2 ⟨x, y, hx, hy, rfl⟩⟩

theorem exact_magnitude {v : Value} {z : ℂ} (h : v.exact = some z) :
    v.magnitude = Double.infinity false ∨ ∃ d, v.magnitude.exact = some d ∧
      |(d : ℝ) - ‖z‖| ≤ ‖z‖ / 2 ^ 51 + 2 ^ Double.leastExponent := by
  obtain ⟨x, y, hx, hy, rfl⟩ := exact_eq_some.1 h
  cases v with
  | real a =>
    right
    have hy0 : y = 0 := Option.some.inj (hy.symm.trans exact_zero)
    refine ⟨|x|, Double.exact_abs hx, ?_⟩
    have hmodulus : ‖(⟨x, y⟩ : ℂ)‖ = |(x : ℝ)| := by
      rw [hy0, Complex.norm_eq_sqrt_sq_add_sq]
      simp [Real.sqrt_sq_eq_abs]
    rw [hmodulus]
    push_cast
    rw [sub_self, abs_zero]
    positivity
  | complex c =>
    have hnorm := Double.exact_hypot hx hy
    rwa [← Complex.norm_eq_sqrt_sq_add_sq ⟨x, y⟩] at hnorm

theorem abs_sub_real_le {d r s : ℚ}
    (h : |d - (r - s)| ≤ |r - s| / 2 ^ 52 + 2 ^ Double.leastExponent) :
    |(r : ℝ) - s - d| ≤ |(r : ℝ) - s| / 2 ^ 52 + 2 ^ Double.leastExponent := by
  have hreal := Double.abs_sub_le_real h
  push_cast at hreal
  rwa [abs_sub_comm] at hreal

/-- The norm of a computed difference is infinite or near the distance. -/
theorem exact_difference {a b : Value} {z w : ℂ} (ha : a.exact = some z) (hb : b.exact = some w) :
    (a.toComplex - b.toComplex).norm = Double.infinity false ∨
      ∃ d, (a.toComplex - b.toComplex).norm.exact = some d ∧
        ‖z - w‖ ≤ d + ‖z - w‖ / 2 ^ 49 + 4 * 2 ^ Double.leastExponent := by
  obtain ⟨x, y, hx, hy, rfl⟩ := exact_eq_some.1 ha
  obtain ⟨x', y', hx', hy', rfl⟩ := exact_eq_some.1 hb
  obtain ⟨hre, hnear⟩ := Double.exact_sub hx hx'
  obtain ⟨him, hnear'⟩ := Double.exact_sub hy hy'
  -- A part that overflows makes the norm infinite.
  by_cases hfinite : (a.toComplex.re - b.toComplex.re).isFinite = true ∧
      (a.toComplex.im - b.toComplex.im).isFinite = true
  · obtain ⟨u, hu⟩ := Double.isFinite_iff_exact.1 hfinite.1
    obtain ⟨v, hv⟩ := Double.isFinite_iff_exact.1 hfinite.2
    refine (Double.exact_hypot hu hv).imp_right ?_
    rintro ⟨d, hd, herror⟩
    refine ⟨d, hd, ?_⟩
    rw [← Complex.norm_eq_sqrt_sq_add_sq ⟨u, v⟩] at herror
    have hmoved : ‖(⟨x, y⟩ : ℂ) - ⟨x', y'⟩ - ⟨u, v⟩‖ ≤
        ‖(⟨x, y⟩ : ℂ) - ⟨x', y'⟩‖ / 2 ^ 51 + 2 * 2 ^ Double.leastExponent := by
      have hre' := abs_sub_real_le (hnear u hu)
      have him' := abs_sub_real_le (hnear' v hv)
      have hparts := Complex.norm_le_abs_re_add_abs_im ((⟨x, y⟩ : ℂ) - ⟨x', y'⟩ - ⟨u, v⟩)
      have hleft := Complex.abs_re_le_norm ((⟨x, y⟩ : ℂ) - ⟨x', y'⟩)
      have hright := Complex.abs_im_le_norm ((⟨x, y⟩ : ℂ) - ⟨x', y'⟩)
      simp only [Complex.sub_re, Complex.sub_im] at hparts hleft hright
      linarith
    have hlow := (abs_le.1 herror).1
    have hhigh := norm_sub_norm_le ((⟨x, y⟩ : ℂ) - ⟨x', y'⟩) ⟨u, v⟩
    have hdistance := norm_nonneg ((⟨x, y⟩ : ℂ) - ⟨x', y'⟩)
    have htiny : (0 : ℝ) < 2 ^ Double.leastExponent := by positivity
    linarith
  · left
    refine Double.hypot_eq_infinity hre him ?_
    rwa [not_and_or, Bool.not_eq_true, Bool.not_eq_true] at hfinite

/-- Rounding errors are too small to use up a factor of two. -/
theorem le_of_rounded {distance largest tolerance magnitude bound difference tiny : ℝ}
    (hlargest : 1 ≤ largest) (htiny : 0 < tiny) (hsmall : tiny ≤ tolerance / 2 ^ 60)
    (htolerance : tolerance ≤ 1 / 4)
    (hmagnitude : |magnitude| ≤ largest + largest / 2 ^ 51 + tiny)
    (hbound : |bound - tolerance * magnitude| ≤ |tolerance * magnitude| / 2 ^ 52 + tiny)
    (hdifference : distance ≤ difference + distance / 2 ^ 49 + 4 * tiny)
    (hle : difference ≤ bound) : distance ≤ 2 * tolerance * largest := by
  have hpos : 0 < tolerance := by linarith
  have hproduct : |tolerance * magnitude| ≤ tolerance * largest * (1 + 1 / 2 ^ 50) := by
    rw [abs_mul, abs_of_pos hpos, mul_assoc]
    refine mul_le_mul_of_nonneg_left ?_ hpos.le
    linarith
  have hscaled : tolerance ≤ tolerance * largest := le_mul_of_one_le_right hpos.le hlargest
  have hupper := (abs_le.1 hbound).2
  have hself := le_abs_self (tolerance * magnitude)
  linarith

theorem magnitude_cases {v : Value} {z : ℂ} (h : v.exact = some z) :
    v.magnitude = Double.infinity false ∨ v.magnitude.isFinite = true :=
  (exact_magnitude h).imp_right fun ⟨_, hd, _⟩ => Double.isFinite_of_exact hd

theorem isNaN_magnitude {v : Value} {z : ℂ} (h : v.exact = some z) :
    v.magnitude.isNaN = false := by
  rcases magnitude_cases h with hinfinite | hfinite
  · rw [hinfinite, Double.isNaN_infinity]
  · exact Double.isNaN_of_isFinite hfinite

variable {a b : Value} {z w : ℂ} {t : Double} {τ : ℚ}

theorem abs_exact_magnitude_le {v : Value} {c : ℂ} {d : ℚ} (hv : v.exact = some c)
    (hd : v.magnitude.exact = some d) :
    |(d : ℝ)| ≤ ‖c‖ + ‖c‖ / 2 ^ 51 + 2 ^ Double.leastExponent := by
  rcases exact_magnitude hv with hinfinite | ⟨d', hd', herror⟩
  · rw [hinfinite, Double.exact, Double.shape_infinity] at hd
    cases hd
  · obtain rfl : d' = d := Option.some.inj (hd'.symm.trans hd)
    have hdistance := abs_sub_abs_le_abs_sub (d' : ℝ) ‖c‖
    rw [abs_of_nonneg (norm_nonneg c)] at hdistance
    linarith

theorem exact_larger (ha : a.exact = some z) (hb : b.exact = some w)
    (hfinite : a.magnitude.isFinite = true) (hfinite' : b.magnitude.isFinite = true) :
    ∃ d, (Double.larger (Double.larger a.magnitude b.magnitude) 1).exact = some d ∧
      |(d : ℝ)| ≤ max 1 (max ‖z‖ ‖w‖) + max 1 (max ‖z‖ ‖w‖) / 2 ^ 51 +
        2 ^ Double.leastExponent := by
  obtain ⟨p, hp⟩ := Double.isFinite_iff_exact.1 hfinite
  obtain ⟨q, hq⟩ := Double.isFinite_iff_exact.1 hfinite'
  have hone : (1 : ℝ) ≤ max 1 (max ‖z‖ ‖w‖) := le_max_left _ _
  have hz : ‖z‖ ≤ max 1 (max ‖z‖ ‖w‖) := (le_max_left _ _).trans (le_max_right _ _)
  have hw : ‖w‖ ≤ max 1 (max ‖z‖ ‖w‖) := (le_max_right _ _).trans (le_max_right _ _)
  have htiny : (0 : ℝ) < 2 ^ Double.leastExponent := by positivity
  have hpz := abs_exact_magnitude_le ha hp
  have hqw := abs_exact_magnitude_le hb hq
  rcases Double.larger_choice (Double.larger a.magnitude b.magnitude) 1 with h | h
  · rw [h]
    rcases Double.larger_choice a.magnitude b.magnitude with h' | h'
    · rw [h']
      exact ⟨p, hp, by linarith⟩
    · rw [h']
      exact ⟨q, hq, by linarith⟩
  · rw [h]
    refine ⟨1, Double.exact_one, ?_⟩
    rw [Rat.cast_one, abs_one]
    linarith

theorem exact_bound (ht : t.exact = some τ) (hpos : 0 < τ) (hhigh : τ ≤ 1 / 4) {x : Double} {r : ℚ}
    (hx : x.exact = some r) : ∃ d, (t * x).exact = some d ∧
      |(d : ℝ) - τ * r| ≤ |(τ : ℝ) * r| / 2 ^ 52 + 2 ^ Double.leastExponent := by
  have hlimit : |τ * r| ≤ 2 ^ (1023 : Int) := by
    have hdouble : (2 : ℚ) ^ (1024 : Int) = 2 ^ (1023 : Int) * 2 := by
      rw [← zpow_add_one₀ (by norm_num)]
      norm_num
    have hlt := Double.abs_exact_lt hx
    rw [hdouble] at hlt
    rw [abs_mul, abs_of_pos hpos]
    generalize (2 : ℚ) ^ (1023 : Int) = top at hlt ⊢
    clear hdouble
    have hproduct : τ * |r| ≤ 1 / 4 * |r| := mul_le_mul_of_nonneg_right hhigh (abs_nonneg r)
    have hnonneg := abs_nonneg r
    linarith
  obtain ⟨d, hd, herror⟩ := Double.exact_mul ht hx hlimit
  refine ⟨d, hd, ?_⟩
  have hreal := Double.abs_sub_le_real herror
  push_cast at hreal
  exact hreal

theorem tolerance_le_quarter (hhigh : τ ≤ 1 / 4) : (τ : ℝ) ≤ 1 / 4 := by
  have hcast := (Rat.cast_le (K := ℝ)).2 hhigh
  push_cast at hcast
  exact hcast

theorem tiny_le_tolerance (hlow : (2 : ℚ) ^ (-997 : Int) ≤ τ) :
    (2 : ℝ) ^ Double.leastExponent ≤ τ / 2 ^ 60 := by
  have hcast : (2 : ℝ) ^ (-997 : Int) ≤ τ := by
    have hcast := (Rat.cast_le (K := ℝ)).2 hlow
    rwa [Rat.cast_zpow, Rat.cast_ofNat] at hcast
  rw [le_div_iff₀ (by positivity), Double.leastExponent]
  calc (2 : ℝ) ^ (-1074 : Int) * 2 ^ 60 = 2 ^ (-1014 : Int) := by
        rw [← zpow_natCast, ← zpow_add₀ (by norm_num)]
        norm_num
    _ ≤ 2 ^ (-997 : Int) := zpow_le_zpow_right₀ (by norm_num) (by norm_num)
    _ ≤ τ := hcast

theorem norm_sub_le (ha : a.exact = some z) (hb : b.exact = some w) (ht : t.exact = some τ)
    (hlow : (2 : ℚ) ^ (-997 : Int) ≤ τ) (hhigh : τ ≤ 1 / 4)
    (hfinite : a.magnitude.isFinite = true) (hfinite' : b.magnitude.isFinite = true)
    (h : a.approxEq t b = true) : ‖z - w‖ ≤ 2 * τ * max 1 (max ‖z‖ ‖w‖) := by
  have hpos : 0 < τ := lt_of_lt_of_le (by positivity) hlow
  obtain ⟨m, hm, hlargest⟩ := exact_larger ha hb hfinite hfinite'
  obtain ⟨bound, hbound, hproduct⟩ := exact_bound ht hpos hhigh hm
  have hle : (a.toComplex - b.toComplex).norm ≤
      t * Double.larger (Double.larger a.magnitude b.magnitude) 1 := of_decide_eq_true h
  rcases exact_difference ha hb with hinfinite | ⟨d, hd, hdistance⟩
  · rw [hinfinite] at hle
    exact absurd hle (Double.not_infinity_le (Double.isFinite_of_exact hbound))
  · have horder : (d : ℝ) ≤ bound := by exact_mod_cast Double.exact_le_exact hle hd hbound
    exact le_of_rounded (le_max_left _ _) (by positivity) (tiny_le_tolerance hlow)
      (tolerance_le_quarter hhigh) hlargest hproduct hdistance horder

theorem approxEq_of_infinite (ha : a.exact = some z) (hb : b.exact = some w)
    (ht : t.exact = some τ) (hpos : 0 < τ)
    (h : a.magnitude.isFinite = false ∨ b.magnitude.isFinite = false) :
    a.approxEq t b = true := by
  have hlarger : Double.larger (Double.larger a.magnitude b.magnitude) 1 =
      Double.infinity false := by
    have hinner : Double.larger a.magnitude b.magnitude = Double.infinity false := by
      rcases magnitude_cases ha with hleft | hleft
      · rw [hleft, Double.larger_infinity_left (isNaN_magnitude hb)]
      · rcases magnitude_cases hb with hright | hright
        · rw [hright, Double.larger_infinity_right hleft]
        · simp [hleft, hright] at h
    rw [hinner, Double.larger_infinity_left rfl]
  have hnan : (a.toComplex - b.toComplex).norm.isNaN = false := by
    rcases exact_difference ha hb with hnorm | ⟨d, hd, -⟩
    · rw [hnorm]
      rfl
    · exact Double.isNaN_of_isFinite (Double.isFinite_of_exact hd)
  rw [approxEq, hlarger, Double.mul_infinity ht hpos]
  exact decide_eq_true (Double.le_infinity hnan)

/-- Finite values within a tolerance of each other are no more than twice as far
apart as it allows, so long as both magnitudes are finite. A magnitude that
overflows makes the bound infinite, and any two such values are found equal. -/
theorem approxEq_distance {a b : Value} {t : Double} (ha : a.isFinite = true)
    (hb : b.isFinite = true) (hlow : (1e-300 : Double) ≤ t) (hhigh : t ≤ (0.25 : Double)) :
    ∃ z w τ, a.exact = some z ∧ b.exact = some w ∧ t.exact = some τ ∧
      (a.magnitude.isFinite = true → b.magnitude.isFinite = true → a.approxEq t b = true →
        ‖z - w‖ ≤ 2 * τ * max 1 (max ‖z‖ ‖w‖)) ∧
      (a.magnitude.isFinite = false ∨ b.magnitude.isFinite = false → a.approxEq t b = true) := by
  obtain ⟨z, hz⟩ := exists_exact ha
  obtain ⟨w, hw⟩ := exists_exact hb
  obtain ⟨τ, hτ, hleast, hgreatest⟩ := Double.exact_tolerance hlow hhigh
  have hpos : 0 < τ := lt_of_lt_of_le (by positivity) hleast
  exact ⟨z, w, τ, hz, hw, hτ, norm_sub_le hz hw hτ hleast hgreatest,
    approxEq_of_infinite hz hw hτ hpos⟩

theorem approxEq_distance_neighbours :
    let a := complex ⟨3, 4⟩
    let b := complex ⟨3, 4.000001⟩
    a.isFinite = true ∧ b.isFinite = true ∧ a.approxEq 1e-6 b = true ∧
      ∃ z w τ, a.exact = some z ∧ b.exact = some w ∧ (1e-6 : Double).exact = some τ ∧
        ‖z - w‖ ≤ 2 * τ * max 1 (max ‖z‖ ‖w‖) := by
  intro a b
  have ha : a.isFinite = true := by decide +kernel
  have hb : b.isFinite = true := by decide +kernel
  have hequal : a.approxEq 1e-6 b = true := by decide +kernel
  obtain ⟨z, w, τ, hz, hw, hτ, hdistance, -⟩ :=
    approxEq_distance ha hb (by decide +kernel : (1e-300 : Double) ≤ 1e-6)
      (by decide +kernel : (1e-6 : Double) ≤ 0.25)
  exact ⟨ha, hb, hequal, z, w, τ, hz, hw, hτ,
    hdistance (by decide +kernel) (by decide +kernel) hequal⟩

/-- A number whose magnitude overflows is found equal to zero. -/
theorem approxEq_overflow :
    let a := complex ⟨1.7e308, 1.7e308⟩
    let b := real 0
    a.isFinite = true ∧ b.isFinite = true ∧ (1e-300 : Double) ≤ 1e-6 ∧ (1e-6 : Double) ≤ 0.25 ∧
      a.approxEq 1e-6 b = true ∧
      ∃ z w τ, a.exact = some z ∧ b.exact = some w ∧ (1e-6 : Double).exact = some τ ∧
        ¬‖z - w‖ ≤ 2 * τ * max 1 (max ‖z‖ ‖w‖) := by
  intro a b
  have ha : a.isFinite = true := by decide +kernel
  have hb : b.isFinite = true := by decide +kernel
  have hlow : (1e-300 : Double) ≤ 1e-6 := by decide +kernel
  have hhigh : (1e-6 : Double) ≤ 0.25 := by decide +kernel
  have hequal : a.approxEq 1e-6 b = true := by decide +kernel
  obtain ⟨τ, hτ, hleast, hgreatest⟩ := Double.exact_tolerance hlow hhigh
  obtain ⟨r, hr, hone⟩ : ∃ r, (1.7e308 : Double).exact = some r ∧ 1 ≤ r := by
    refine ⟨_, Double.exact_eq_some.2 ⟨false, 8517715530038134, 971, by decide +kernel, rfl⟩, ?_⟩
    rw [Double.signed_positive]
    exact one_le_mul_of_one_le_of_one_le (by norm_num) (one_le_zpow₀ (by norm_num) (by norm_num))
  have hz : a.exact = some ⟨r, r⟩ := exact_eq_some.2 ⟨r, r, hr, hr, rfl⟩
  have hw : b.exact = some 0 := by
    refine exact_eq_some.2 ⟨0, 0, exact_zero, exact_zero, ?_⟩
    rw [Rat.cast_zero]
    rfl
  have hlarge : 1 ≤ ‖(⟨r, r⟩ : ℂ)‖ := by
    have hone' : (1 : ℝ) ≤ r := by exact_mod_cast hone
    exact hone'.trans ((le_abs_self _).trans (Complex.abs_re_le_norm ⟨r, r⟩))
  have hquarter := tolerance_le_quarter hgreatest
  refine ⟨ha, hb, hlow, hhigh, hequal, ⟨r, r⟩, 0, τ, hz, hw, hτ, ?_⟩
  rw [sub_zero, norm_zero, max_eq_left (norm_nonneg _), max_eq_right hlarge, not_le]
  calc 2 * (τ : ℝ) * ‖(⟨r, r⟩ : ℂ)‖ ≤ 2 * (1 / 4) * ‖(⟨r, r⟩ : ℂ)‖ := by gcongr
    _ < ‖(⟨r, r⟩ : ℂ)‖ := by linarith

end Value

end AnswerKey

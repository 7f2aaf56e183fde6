import AnswerKey.Decimal
import Mathlib

/-! The digits of a double that is not zero start with one that is not zero. -/
namespace AnswerKey.Decimal

theorem head?_digitChars {n : Nat} (h : n ≠ 0) : (digitChars n).head? ≠ some '0' := by
  induction n using Nat.strongRecOn with
  | ind n ih =>
    rw [digitChars, Nat.toDigits_eq_if (by decide)]
    split
    case isTrue hlt =>
      have hdigit : ∀ m < 10, m ≠ 0 → m.digitChar ≠ '0' := by decide
      simpa using hdigit n hlt h
    case isFalse hle =>
      have hfirst := ih (n / 10) (by omega) (by omega)
      rwa [List.head?_append_of_ne_nil _ Nat.toDigits_ne_nil]

theorem lt_pow_width (n : Nat) : n < 10 ^ width n :=
  (Nat.length_toDigits_le_iff (by decide) Nat.length_toDigits_pos).1 (Nat.le_refl _)

theorem pow_width_le {n : Nat} (h : n ≠ 0) : 10 ^ (width n - 1) ≤ n := by
  by_contra hlt
  by_cases hwidth : width n - 1 = 0
  · rw [hwidth] at hlt
    omega
  · have hle : width n ≤ width n - 1 :=
      (Nat.length_toDigits_le_iff (by decide) (by omega)).2 (by omega)
    omega

/-! A fraction reaches a power of ten when it is at least as large. -/

theorem reaches_iff (num den : Nat) (e : Int) : (scaledTen num den e).2 ≤ (scaledTen num den e).1 ↔
    (10 : ℚ) ^ e * den ≤ num := by
  unfold scaledTen
  split
  case isTrue he =>
    obtain ⟨k, rfl⟩ := Int.eq_ofNat_of_zero_le he
    rw [← Nat.cast_le (α := ℚ)]
    simp [mul_comm]
  case isFalse he =>
    obtain ⟨k, rfl⟩ : ∃ k : Nat, e = -(k : Int) := ⟨(-e).toNat, by omega⟩
    rw [← Nat.cast_le (α := ℚ)]
    simp only [neg_neg, Int.toNat_natCast, Nat.pow_eq, Nat.cast_mul, Nat.cast_pow, Nat.cast_ofNat,
      zpow_neg, zpow_natCast]
    rw [inv_mul_le_iff₀ (by positivity), mul_comm]

theorem leadingOf_reaches {num : Nat} (den : Nat) (hnum : num ≠ 0) :
    (10 : ℚ) ^ leadingOf num den * den ≤ num := by
  unfold leadingOf
  simp only
  split
  case isFalse hle => exact (reaches_iff num den _).1 (Nat.le_of_not_lt hle)
  case isTrue =>
    have hden : (den : ℚ) ≤ 10 ^ (width den : Int) := by
      exact_mod_cast (lt_pow_width den).le
    have hpow : (10 : ℚ) ^ ((width num : Int) - 1) ≤ num := by
      have hwidth : 0 < width num := Nat.length_toDigits_pos
      rw [show (width num : Int) - 1 = ((width num - 1 : Nat) : Int) by omega]
      exact_mod_cast pow_width_le hnum
    calc (10 : ℚ) ^ ((width num : Int) - width den - 1) * den
        ≤ 10 ^ ((width num : Int) - width den - 1) * 10 ^ (width den : Int) := by gcongr
      _ = 10 ^ ((width num : Int) - 1) := by
        rw [← zpow_add₀ (by norm_num)]
        congr 1
        ring
      _ ≤ num := hpow

theorem le_roundQuotient (tie : Double.Tie) (num den : Nat) :
    num / den ≤ Double.roundQuotient tie num den := by
  unfold Double.roundQuotient
  simp only
  split
  · exact Nat.le_refl _
  · split
    · omega
    · split
      · omega
      · split <;> omega

theorem digits_rounded {count num den : Nat} (hnum : num ≠ 0) (hden : den ≠ 0)
    (hcount : count ≠ 0) : (rounded count num den).digits ≠ 0 := by
  unfold rounded
  simp only
  split
  · simp
  · have hreaches : (scaledTen num den (leadingOf num den - count + 1)).2 ≤
        (scaledTen num den (leadingOf num den - count + 1)).1 := by
      rw [reaches_iff]
      refine le_trans ?_ (leadingOf_reaches den hnum)
      gcongr
      · norm_num
      · omega
    have hpos : 0 < (scaledTen num den (leadingOf num den - count + 1)).2 := by
      unfold scaledTen
      split
      · simp; omega
      · simp; omega
    have hquotient := Nat.div_pos hreaches hpos
    have hround := le_roundQuotient .even (scaledTen num den (leadingOf num den - count + 1)).1
      (scaledTen num den (leadingOf num den - count + 1)).2
    exact Nat.pos_iff_ne_zero.1 (hquotient.trans_le hround)

theorem digits_stripZeros (fuel : Nat) {d : Decimal} (h : d.digits ≠ 0) :
    (stripZeros fuel d).digits ≠ 0 := by
  induction fuel generalizing d with
  | zero => exact h
  | succ fuel ih =>
    rw [stripZeros]
    split
    case isTrue hzero => exact ih (show d.digits / 10 ≠ 0 by omega)
    case isFalse => exact h

theorem fractionOf_ne_zero {mantissa : Nat} (exponent : Int) (h : mantissa ≠ 0) :
    (Double.fractionOf mantissa exponent).1 ≠ 0 ∧ (Double.fractionOf mantissa exponent).2 ≠ 0 := by
  unfold Double.fractionOf
  split
  · simp [h]
  · simp [h]

theorem low_intervalOf {mantissa : Nat} (exponent : Int) (h : mantissa ≠ 0) :
    (intervalOf mantissa exponent).low ≠ 0 := by
  have hnum := (fractionOf_ne_zero exponent h).1
  have hunit := Nat.div_le_self (Double.fractionOf mantissa exponent).1 mantissa
  unfold intervalOf
  simp only
  split <;> omega

theorem digits_of_contains {i : Interval} {d : Decimal} (hlow : i.low ≠ 0)
    (h : i.contains d = true) : d.digits ≠ 0 := by
  intro hzero
  by_cases hexponent : 0 ≤ d.exponent
  · simp [Interval.contains, hzero, hexponent, hlow] at h
  · simp [Interval.contains, hzero, hexponent, hlow] at h

theorem digits_neighbour? {tie : Double.Tie} {i : Interval} {e : Int} {d : Decimal}
    (hlow : i.low ≠ 0) (h : neighbour? tie i e = some d) : d.digits ≠ 0 := by
  unfold neighbour? at h
  simp only at h
  split at h
  case h_1 hbelow _ =>
    cases h
    have hquotient := digits_of_contains hlow hbelow
    have hround := le_roundQuotient tie (scaledTen i.value i.den e).1 (scaledTen i.value i.den e).2
    exact Nat.pos_iff_ne_zero.1 ((Nat.pos_of_ne_zero hquotient).trans_le hround)
  case h_2 hbelow _ =>
    cases h
    exact digits_of_contains hlow hbelow
  case h_3 =>
    cases h
    exact Nat.succ_ne_zero _
  case h_4 => cases h

theorem digits_firstHit {tie : Double.Tie} {i : Interval} {steps : Nat} {e : Int} {d : Decimal}
    (hlow : i.low ≠ 0) (h : firstHit tie i steps e = some d) : d.digits ≠ 0 := by
  induction steps generalizing e with
  | zero => cases h
  | succ steps ih =>
    cases hneighbour : neighbour? tie i e with
    | some d' =>
      obtain rfl : d' = d := by simpa [firstHit, hneighbour] using h
      exact digits_neighbour? hlow hneighbour
    | none => exact ih (by simpa [firstHit, hneighbour] using h)

theorem digits_shortest {tie : Double.Tie} {mantissa : Nat} {exponent : Int} (h : mantissa ≠ 0) :
    (shortest tie mantissa exponent).digits ≠ 0 := by
  unfold shortest normal
  refine digits_stripZeros _ ?_
  cases hhit : firstHit tie (intervalOf mantissa exponent) 18
      (leadingOf (intervalOf mantissa exponent).value (intervalOf mantissa exponent).den) with
  | some d => exact digits_firstHit (low_intervalOf exponent h) hhit
  | none =>
    obtain ⟨hnum, hden⟩ := fractionOf_ne_zero exponent h
    refine digits_rounded ?_ ?_ (by decide)
    · show 4 * (Double.fractionOf mantissa exponent).1 ≠ 0
      omega
    · show 4 * (Double.fractionOf mantissa exponent).2 ≠ 0
      omega

end AnswerKey.Decimal

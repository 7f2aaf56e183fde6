import AnswerKey.Evaluation.Extrapolation
import Mathlib

/-! Limits over exact rational numbers. Each column of the triangle takes one more
power of the step out of a polynomial, so that enough samples give its value. -/
namespace AnswerKey.Evaluation

open Polynomial

/-- The entry at a step in a column of the triangle, for samples of `g`. -/
def column (g : ℚ → ℚ) : Nat → ℚ → ℚ
  | 0, h => g h
  | j + 1, h => column g j h + (column g j h - column g j (2 * h)) / (2 ^ (j + 1) - 1)

section Rows

variable {ε : Type} {g : ℚ → ℚ} {sample : ℚ → Except ε ℚ}

theorem refineRow_column (g : ℚ → ℚ) (h : ℚ) (j count : Nat) :
    refineRow (2 ^ (j + 1)) (column g j h)
        ((List.range' j count).map fun i => column g i (2 * h)) =
      (List.range' (j + 1) count).map fun i => column g i h := by
  induction count generalizing j with
  | zero => rfl
  | succ count ih =>
    have hentry : column g j h + (column g j h - column g j (2 * h)) / (2 ^ (j + 1) - 1.0) =
        column g (j + 1) h := by
      norm_num [column]
    have hfactor : (2 : ℚ) ^ (j + 1) + 2 ^ (j + 1) = 2 ^ (j + 1 + 1) := by ring
    rw [List.range'_succ, List.range'_succ, List.map_cons, List.map_cons, refineRow]
    simp only [hentry, hfactor, ih]

theorem nextRow_column (g : ℚ → ℚ) (h : ℚ) (k : Nat) :
    nextRow (2.0 : ℚ) ((List.range k).map fun i => column g i (2 * h)) (g h) =
      (List.range (k + 1)).map fun i => column g i h := by
  have hrow := refineRow_column g h 0 k
  rw [zero_add, pow_one] at hrow
  rw [nextRow, List.range_eq_range', List.range_eq_range', List.range'_succ, List.map_cons,
    zero_add, ← hrow]
  norm_num [column]

/-- A row holds one entry of each column, all at the last step. -/
theorem rowsFrom_column {k : Nat} (more : Nat)
    (hs : ∀ i < k + more, sample (initialStep / 2 ^ i) = .ok (g (initialStep / 2 ^ i))) :
    rowsFrom sample ((List.range k).map fun i => column g i (2 * (initialStep / 2 ^ k))) (2 ^ k)
        more =
      .ok ((List.range (k + more)).map fun i =>
        column g i (2 * (initialStep / 2 ^ (k + more)))) := by
  induction more generalizing k with
  | zero => rfl
  | succ more ih =>
    have hhalf : initialStep / (2 : ℚ) ^ k = 2 * (initialStep / 2 ^ (k + 1)) := by
      rw [pow_succ]
      ring
    have hdouble : (2 : ℚ) ^ k + 2 ^ k = 2 ^ (k + 1) := by ring
    rw [rowsFrom, hs k (by omega)]
    show rowsFrom sample (nextRow 2.0 _ _) _ more = _
    rw [nextRow_column, hdouble, hhalf, ih fun i hi => hs i (by omega), Nat.add_right_comm,
      Nat.add_assoc k]

theorem extrapolate_column {n : Nat}
    (hs : ∀ i < n + 1, sample (initialStep / 2 ^ i) = .ok (g (initialStep / 2 ^ i))) :
    extrapolate (n + 1) sample = .ok (some (column g n (initialStep / 2 ^ n))) := by
  have hrows := rowsFrom_column (k := 0) (n + 1) (by simpa using hs)
  have hstep : 2 * (initialStep / (2 : ℚ) ^ (n + 1)) = initialStep / 2 ^ n := by
    rw [pow_succ]
    ring
  rw [List.range_zero, List.map_nil, pow_zero, Nat.zero_add, hstep] at hrows
  rw [extrapolate, show (1.0 : ℚ) = 1 by norm_num, hrows, List.range_succ]
  simp [Except.map]

end Rows

/-! Polynomials. -/

def remainder (j i : Nat) : ℚ := ∏ l ∈ Finset.range j, (2 ^ (l + 1) - 2 ^ i) / (2 ^ (l + 1) - 1)

theorem two_pow_sub_one_ne_zero (l : Nat) : (2 : ℚ) ^ (l + 1) - 1 ≠ 0 := by
  have h : (1 : ℚ) < 2 ^ (l + 1) := one_lt_pow₀ (by norm_num) (by omega)
  exact (sub_pos.2 h).ne'

theorem remainder_zero (j : Nat) : remainder j 0 = 1 :=
  Finset.prod_eq_one fun l _ => by rw [pow_zero, div_self (two_pow_sub_one_ne_zero l)]

theorem remainder_eq_zero {j i : Nat} (hi : 0 < i) (hij : i ≤ j) : remainder j i = 0 := by
  refine Finset.prod_eq_zero (Finset.mem_range.2 (Nat.sub_one_lt_of_le hi hij)) ?_
  rw [Nat.sub_add_cancel hi, sub_self, zero_div]

theorem column_eval (q : ℚ[X]) (j : Nat) (h : ℚ) :
    column (fun x => q.eval x) j h =
      ∑ i ∈ Finset.range (q.natDegree + 1), q.coeff i * remainder j i * h ^ i := by
  induction j generalizing h with
  | zero => simp [column, remainder, eval_eq_sum_range]
  | succ j ih =>
    rw [column, ih, ih, ← Finset.sum_sub_distrib, Finset.sum_div, ← Finset.sum_add_distrib]
    refine Finset.sum_congr rfl fun i _ => ?_
    have hne := two_pow_sub_one_ne_zero j
    rw [remainder, remainder, Finset.prod_range_succ, mul_pow]
    field_simp
    ring

theorem column_eval_of_natDegree_le {q : ℚ[X]} {j : Nat} (hq : q.natDegree ≤ j) (h : ℚ) :
    column (fun x => q.eval x) j h = q.eval 0 := by
  rw [column_eval, Finset.sum_eq_single 0, remainder_zero, pow_zero, mul_one, mul_one,
    coeff_zero_eq_eval_zero]
  · intro i hi hne
    have hij : i ≤ j := (Nat.lt_succ_iff.1 (Finset.mem_range.1 hi)).trans hq
    rw [remainder_eq_zero (Nat.pos_of_ne_zero hne) hij, mul_zero, zero_mul]
  · simp

theorem extrapolate_polynomial {ε : Type} {sample : ℚ → Except ε ℚ} {steps : Nat} {q : ℚ[X]}
    (hq : q.natDegree < steps)
    (hs : ∀ k < steps, sample (initialStep / 2 ^ k) = .ok (q.eval (initialStep / 2 ^ k))) :
    extrapolate steps sample = .ok (some (q.eval 0)) := by
  obtain ⟨n, rfl⟩ : ∃ n, steps = n + 1 := Nat.exists_eq_add_one.2 (by omega)
  rw [extrapolate_column (g := fun x => q.eval x) hs, column_eval_of_natDegree_le (by omega)]

theorem natDegree_comp_linear_le (p : ℚ[X]) (a b : ℚ) :
    (p.comp (C a + C b * X)).natDegree ≤ p.natDegree := by
  have hlinear : (C a + C b * X : ℚ[X]).natDegree ≤ 1 := by compute_degree
  calc (p.comp (C a + C b * X)).natDegree
      ≤ p.natDegree * (C a + C b * X : ℚ[X]).natDegree := natDegree_comp_le
    _ ≤ p.natDegree * 1 := Nat.mul_le_mul_left _ hlinear
    _ = p.natDegree := mul_one _

def Approach.sampleAt (approach : Approach ℚ) (k : Nat) : ℚ :=
  approach.point (initialStep / 2 ^ k)

/-- From as many samples as it has coefficients, the limit of a polynomial at a
number is its value there, and at infinity that of a polynomial in the reciprocal
is its value at zero. -/
theorem limitAlong_polynomial {ε : Type} {steps : Nat} {p : ℚ[X]}
    (hp : p.natDegree < max 1 steps) (f : ℚ → Except ε ℚ) :
    (∀ target side : ℚ,
      (∀ k < max 1 steps, f ((Approach.near target side).sampleAt k) =
        .ok (p.eval ((Approach.near target side).sampleAt k))) →
      limitAlong steps (.near target side) f = .ok (some (p.eval target))) ∧
    ∀ sign : ℚ,
      (∀ k < max 1 steps, f ((Approach.far sign).sampleAt k) =
        .ok (p.eval (1 / (Approach.far sign).sampleAt k))) →
      limitAlong steps (.far sign) f = .ok (some (p.eval 0)) := by
  constructor
  · intro target side hf
    have hline (h : ℚ) : (p.comp (C target + C (side * scaleOf target) * X)).eval h =
        p.eval (pointNear target side h) := by
      rw [eval_comp, pointNear]
      congr 1
      simp only [eval_add, eval_mul, eval_C, eval_X]
      ring
    have hzero : pointNear target side 0 = target := by simp [pointNear]
    rw [limitAlong, extrapolate_polynomial ((natDegree_comp_linear_le p _ _).trans_lt hp), hline,
      hzero]
    intro k hk
    rw [hline]
    exact hf k hk
  · intro sign hf
    have hline (h : ℚ) : (p.comp (C 0 + C sign⁻¹ * X)).eval h = p.eval (1 / pointFar sign h) := by
      rw [eval_comp, pointFar, one_div_div]
      congr 1
      simp only [eval_add, eval_mul, eval_C, eval_X]
      ring
    rw [limitAlong, extrapolate_polynomial ((natDegree_comp_linear_le p _ _).trans_lt hp), hline]
    · simp [pointFar]
    intro k hk
    rw [hline]
    exact hf k hk

/-- Three samples from below, and three towards minus infinity, of quadratic
polynomials. -/
theorem limitAlong_quadratic :
    (X ^ 2 + 1 : ℚ[X]).natDegree < max 1 3 ∧
      limitAlong 3 (.near 3 (-1)) (fun x => (.ok (x ^ 2 + 1) : Except Unit ℚ)) = .ok (some 10) ∧
      limitAlong 3 (.far (-1)) (fun x => (.ok ((1 / x) ^ 2 + 1) : Except Unit ℚ)) =
        .ok (some 1) := by
  have hp : (X ^ 2 + 1 : ℚ[X]).natDegree < max 1 3 := by
    have hdegree : (X ^ 2 + 1 : ℚ[X]).natDegree ≤ 2 := by compute_degree
    omega
  have heval (x : ℚ) : (X ^ 2 + 1 : ℚ[X]).eval x = x ^ 2 + 1 := by simp
  refine ⟨hp, ?_, ?_⟩
  · rw [(limitAlong_polynomial hp _).1 3 (-1) fun k _ => by rw [heval], heval]
    norm_num
  · rw [(limitAlong_polynomial hp _).2 (-1) fun k _ => by rw [heval], heval]
    norm_num

end AnswerKey.Evaluation

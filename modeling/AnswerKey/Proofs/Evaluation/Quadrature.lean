import AnswerKey.Evaluation.Quadrature
import Mathlib

/-! Quadrature over exact rational numbers: where functions are evaluated, and how
close the rule is on polynomials. Each panel is the interval from `-1` to `1` moved
and stretched, on which the nodes and weights are accurate up to their digits. -/
namespace AnswerKey.Evaluation

open Polynomial

@[simp] theorem natural_eq_cast (n : Nat) : (natural n : ℚ) = n := by
  show Rat.ofScientific n false 0 = n
  rw [Rat.ofScientific_false_def, pow_zero, mul_one]

/-! Points. -/

def halfWidth (panels : Nat) (a b : ℚ) : ℚ := halfWidthOf (max 1 panels) a b

def middle (panels : Nat) (a b : ℚ) (panel : Nat) : ℚ := middleOf a (halfWidth panels a b) panel

def panelPoints (middle halfWidth : ℚ) : List (ℚ × ℚ) :=
  gaussLegendre.map fun (node, weight) => (middle + halfWidth * node, weight)

def points (panels : Nat) (a b : ℚ) : List (ℚ × ℚ) :=
  (List.range (max 1 panels)).flatMap fun panel =>
    panelPoints (middle panels a b panel) (halfWidth panels a b)

theorem foldlM_flatMap {α β σ ε : Type} (step : σ → β → Except ε σ) (g : α → List β)
    (xs : List α) (total : σ) : (xs.flatMap g).foldlM step total =
      xs.foldlM (fun total x => (g x).foldlM step total) total := by
  induction xs generalizing total with
  | nil => rfl
  | cons x xs ih =>
    rw [List.flatMap_cons, List.foldlM_append, List.foldlM_cons]
    simp only [ih]

def addPoint {ε : Type} (substitution : ℚ → ℚ × ℚ) (f : ℚ → Except ε ℚ) (halfWidth total : ℚ) :
    ℚ × ℚ → Except ε ℚ
  | (t, weight) => do
    let value ← f (substitution t).1
    return total + value * (weight * (substitution t).2 * halfWidth)

/-- The integrand is evaluated at the points and nowhere else. -/
theorem quadrature_eq_foldlM {ε : Type} (panels : Nat) (a b : ℚ) (substitution : ℚ → ℚ × ℚ)
    (f : ℚ → Except ε ℚ) : quadrature panels a b substitution f =
      (points panels a b).foldlM (addPoint substitution f (halfWidth panels a b)) 0 := by
  rw [points, foldlM_flatMap]
  simp only [panelPoints, List.foldlM_map]
  rfl

theorem halfWidth_pos (panels : Nat) {a b : ℚ} (h : a < b) : 0 < halfWidth panels a b := by
  have hpanels : (0 : ℚ) < (max 1 panels : Nat) := Nat.cast_pos.2 (by omega)
  rw [halfWidth, halfWidthOf, natural_eq_cast]
  exact div_pos (mul_pos (by norm_num) (sub_pos.2 h)) hpanels

theorem width_eq (panels : Nat) (a b : ℚ) :
    2 * (max 1 panels : Nat) * halfWidth panels a b = b - a := by
  have hpanels : ((max 1 panels : Nat) : ℚ) ≠ 0 := Nat.cast_ne_zero.2 (by omega)
  rw [halfWidth, halfWidthOf, natural_eq_cast]
  field_simp
  norm_num

def leftEnd (panels : Nat) (a b : ℚ) (panel : Nat) : ℚ := a + 2 * panel * halfWidth panels a b

theorem middle_eq (panels : Nat) (a b : ℚ) (panel : Nat) :
    middle panels a b panel = leftEnd panels a b panel + halfWidth panels a b := by
  rw [middle, middleOf, natural_eq_cast, leftEnd]
  push_cast
  ring

theorem leftEnd_succ (panels : Nat) (a b : ℚ) (panel : Nat) :
    leftEnd panels a b (panel + 1) = leftEnd panels a b panel + 2 * halfWidth panels a b := by
  rw [leftEnd, leftEnd]
  push_cast
  ring

theorem leftEnd_last (panels : Nat) (a b : ℚ) : leftEnd panels a b (max 1 panels) = b := by
  rw [leftEnd, width_eq]
  ring

theorem leftEnd_mem {panels : Nat} {a b : ℚ} (h : a < b) {panel : Nat}
    (hpanel : panel ≤ max 1 panels) :
    a ≤ leftEnd panels a b panel ∧ leftEnd panels a b panel ≤ b := by
  have hpos := halfWidth_pos panels h
  have hcast : (panel : ℚ) ≤ (max 1 panels : Nat) := by exact_mod_cast hpanel
  have hlast := width_eq panels a b
  rw [leftEnd]
  constructor
  · have : 0 ≤ 2 * (panel : ℚ) * halfWidth panels a b := by positivity
    linarith
  · nlinarith

theorem node_mem {node weight : ℚ} (h : (node, weight) ∈ gaussLegendre (R := ℚ)) :
    -1 < node ∧ node < 1 := by
  simp only [gaussLegendre, List.mem_cons, Prod.mk.injEq, List.not_mem_nil, or_false] at h
  obtain ⟨rfl, -⟩ | ⟨rfl, -⟩ | ⟨rfl, -⟩ | ⟨rfl, -⟩ | ⟨rfl, -⟩ := h <;> norm_num

theorem points_mem {panels : Nat} {a b : ℚ} (h : a < b) {t weight : ℚ}
    (ht : (t, weight) ∈ points panels a b) : a < t ∧ t < b := by
  obtain ⟨panel, hpanel, hpoint⟩ := List.mem_flatMap.1 ht
  obtain ⟨⟨node, w⟩, hnode, heq⟩ := List.mem_map.1 hpoint
  obtain ⟨rfl, rfl⟩ := Prod.mk.inj heq
  have hpanel' : panel + 1 ≤ max 1 panels := List.mem_range.1 hpanel
  have hpos := halfWidth_pos panels h
  have hleft := (leftEnd_mem h (Nat.le_of_succ_le hpanel')).1
  have hright := (leftEnd_mem h hpanel').2
  rw [leftEnd_succ] at hright
  obtain ⟨hlow, hhigh⟩ := node_mem hnode
  rw [middle_eq]
  constructor
  · nlinarith
  · nlinarith

theorem stretch_mul {t : ℚ} (h : t < 1) :
    stretch t * (1 - t) = t ∧ stretchDerivative t * ((1 - t) * (1 - t)) = 1 := by
  have hne : 1 - t ≠ 0 := (sub_pos.2 h).ne'
  constructor
  · rw [stretch]
    norm_num
    exact div_mul_cancel₀ t hne
  · rw [stretchDerivative]
    norm_num
    field_simp

/-! Values. -/

noncomputable def nodeSum (q : ℝ → ℝ) : ℝ :=
  ((gaussLegendre (R := ℚ)).map fun (node, weight) => q node * weight).sum

theorem zero_literal : (0.0 : ℚ) = 0 := by norm_num

theorem one_literal : (1.0 : ℚ) = 1 := by norm_num

theorem nodeSum_eq (q : ℝ → ℝ) : nodeSum q =
    q 0 * 0.5688888888888889 + q (-0.5384693101056831) * 0.4786286704993665 +
      q 0.5384693101056831 * 0.4786286704993665 + q (-0.906179845938664) * 0.2369268850561891 +
      q 0.906179845938664 * 0.2369268850561891 := by
  simp only [nodeSum, gaussLegendre, List.map_cons, List.map_nil, List.sum_cons, List.sum_nil,
    zero_literal]
  push_cast
  ring

theorem nodeSum_sum (s : Finset ℕ) (c : ℕ → ℝ) (q : ℕ → ℝ → ℝ) :
    nodeSum (fun t => ∑ i ∈ s, c i * q i t) = ∑ i ∈ s, c i * nodeSum (q i) := by
  simp only [nodeSum_eq, Finset.sum_mul, ← Finset.sum_add_distrib]
  exact Finset.sum_congr rfl fun i _ => by ring

theorem foldlM_add {α ε : Type} {step : ℚ → α → Except ε ℚ} {term : α → ℚ} {xs : List α}
    (h : ∀ total, ∀ x ∈ xs, step total x = .ok (total + term x)) (total : ℚ) :
    xs.foldlM step total = .ok (total + (xs.map term).sum) := by
  induction xs generalizing total with
  | nil => simp [pure, Except.pure]
  | cons x xs ih =>
    rw [List.foldlM_cons, h total x (by simp)]
    show xs.foldlM step (total + term x) = _
    rw [ih fun t y hy => h t y (List.mem_cons_of_mem _ hy), List.map_cons, List.sum_cons, add_assoc]

theorem sum_panelPoints {g : ℚ → ℚ} {q : ℝ → ℝ} (hq : ∀ x : ℚ, q x = g x) (m h : ℚ) :
    ((((panelPoints m h).map fun (t, weight) => g t * (weight * 1.0 * h)).sum : ℚ) : ℝ) =
      h * nodeSum fun t => q (m + h * t) := by
  simp only [panelPoints, nodeSum, gaussLegendre, List.map_cons, List.map_nil, List.sum_cons,
    List.sum_nil, Rat.cast_add, Rat.cast_mul, ← hq, zero_literal, one_literal]
  push_cast
  ring

theorem quadrature_ok {ε : Type} (panels : Nat) {a b : ℚ} (h : a < b) {g : ℚ → ℚ}
    {f : ℚ → Except ε ℚ} (hf : ∀ x, a < x → x < b → f x = .ok (g x)) {q : ℝ → ℝ}
    (hq : ∀ x : ℚ, q x = g x) : ∃ v : ℚ,
      quadrature panels a b (fun t => (t, 1.0)) f = .ok v ∧
        (v : ℝ) = ∑ panel ∈ Finset.range (max 1 panels), (halfWidth panels a b : ℝ) *
          nodeSum fun t => q (middle panels a b panel + halfWidth panels a b * t) := by
  have hsum : (points panels a b).foldlM
      (addPoint (fun t => (t, 1.0)) f (halfWidth panels a b)) 0 =
      .ok (0 + ((points panels a b).map fun (t, weight) =>
        g t * (weight * 1.0 * halfWidth panels a b)).sum) := by
    refine foldlM_add ?_ 0
    rintro total ⟨t, weight⟩ ht
    obtain ⟨hlow, hhigh⟩ := points_mem h ht
    simp only [addPoint, hf t hlow hhigh]
    rfl
  refine ⟨_, (quadrature_eq_foldlM panels a b _ f).trans hsum, ?_⟩
  rw [zero_add, points, List.map_flatMap, List.flatMap_def, List.sum_flatten, List.map_map]
  show ((∑ panel ∈ Finset.range (max 1 panels), _ : ℚ) : ℝ) = _
  rw [Rat.cast_sum]
  exact Finset.sum_congr rfl fun panel _ => sum_panelPoints hq _ _

/-! Accuracy. -/

/-- How far the powers up to the ninth are from their integrals. -/
theorem nodeSum_pow {k : Nat} (hk : k < 10) :
    |nodeSum (fun t => t ^ k) - ∫ t in (-1 : ℝ)..1, t ^ k| ≤ 2e-15 := by
  rw [integral_pow, nodeSum_eq, abs_le]
  interval_cases k <;> norm_num

theorem integral_panel (m h : ℝ) (q : ℝ → ℝ) :
    ∫ x in (m - h)..(m + h), q x = h * ∫ t in (-1 : ℝ)..1, q (m + h * t) := by
  have hmoved := intervalIntegral.mul_integral_comp_mul_add (a := -1) (b := 1) (f := q) h m
  rw [show h * -1 + m = m - h by ring, show h * 1 + m = m + h by ring] at hmoved
  rw [← hmoved]
  simp only [add_comm (h * _)]

theorem panel_pow {i : Nat} (hi : i < 10) (m : ℝ) {h : ℝ} (hh : 0 ≤ h) :
    |h * nodeSum (fun t => (m + h * t) ^ i) - ∫ x in (m - h)..(m + h), x ^ i| ≤
      2e-15 * h * (|m| + h) ^ i := by
  -- Expanded around the middle, the power is a sum of powers that the nodes are for.
  let c (k : ℕ) : ℝ := m ^ (i - k) * h ^ k * i.choose k
  have hexpand (t : ℝ) : (m + h * t) ^ i = ∑ k ∈ Finset.range (i + 1), c k * t ^ k := by
    rw [add_comm m, add_pow]
    exact Finset.sum_congr rfl fun k _ => by rw [mul_pow]; ring
  have hbound : ∑ k ∈ Finset.range (i + 1), |c k| = (|m| + h) ^ i := by
    rw [add_comm |m|, add_pow]
    refine Finset.sum_congr rfl fun k _ => ?_
    rw [abs_mul, abs_mul, abs_pow, abs_pow, abs_of_nonneg hh, Nat.abs_cast]
    ring
  have hintegral : ∫ x in (m - h)..(m + h), x ^ i =
      h * ∑ k ∈ Finset.range (i + 1), c k * ∫ t in (-1 : ℝ)..1, t ^ k := by
    rw [integral_panel]
    simp only [hexpand]
    rw [intervalIntegral.integral_finsetSum fun k _ => (by fun_prop : Continuous fun t : ℝ =>
      c k * t ^ k).intervalIntegrable _ _]
    simp only [intervalIntegral.integral_const_mul]
  rw [hintegral]
  simp only [hexpand]
  rw [nodeSum_sum, ← mul_sub, ← Finset.sum_sub_distrib, abs_mul, abs_of_nonneg hh]
  calc h * |∑ k ∈ Finset.range (i + 1), (c k * nodeSum (fun t => t ^ k) -
        c k * ∫ t in (-1 : ℝ)..1, t ^ k)|
      ≤ h * ∑ k ∈ Finset.range (i + 1), |c k| * 2e-15 := by
        refine mul_le_mul_of_nonneg_left ((Finset.abs_sum_le_sum_abs _ _).trans ?_) hh
        refine Finset.sum_le_sum fun k hk => ?_
        rw [← mul_sub, abs_mul]
        have hk' : k < 10 := (Finset.mem_range.1 hk).trans_le hi
        exact mul_le_mul_of_nonneg_left (nodeSum_pow hk') (abs_nonneg _)
    _ = 2e-15 * h * (|m| + h) ^ i := by
        rw [← Finset.sum_mul, hbound]
        ring

/-- How far a polynomial is from its integral over a panel whose ends are at most
`most` from zero. -/
theorem panel_polynomial (c : ℕ → ℝ) {m h most : ℝ} (hh : 0 ≤ h) (hmost : |m| + h ≤ most) :
    |h * nodeSum (fun t => ∑ i ∈ Finset.range 10, c i * (m + h * t) ^ i) -
        ∫ x in (m - h)..(m + h), ∑ i ∈ Finset.range 10, c i * x ^ i| ≤
      2e-15 * h * ∑ i ∈ Finset.range 10, |c i| * most ^ i := by
  rw [nodeSum_sum, intervalIntegral.integral_finsetSum fun i _ => (by fun_prop : Continuous
    fun x : ℝ => c i * x ^ i).intervalIntegrable _ _, Finset.mul_sum, ← Finset.sum_sub_distrib,
    Finset.mul_sum]
  refine (Finset.abs_sum_le_sum_abs _ _).trans (Finset.sum_le_sum fun i hi => ?_)
  have hpow : (|m| + h) ^ i ≤ most ^ i := pow_le_pow_left₀ (add_nonneg (abs_nonneg m) hh) hmost i
  rw [intervalIntegral.integral_const_mul, mul_left_comm, ← mul_sub, abs_mul]
  calc |c i| * |h * nodeSum (fun t => (m + h * t) ^ i) - ∫ x in (m - h)..(m + h), x ^ i|
      ≤ |c i| * (2e-15 * h * (|m| + h) ^ i) :=
        mul_le_mul_of_nonneg_left (panel_pow (Finset.mem_range.1 hi) m hh) (abs_nonneg _)
    _ ≤ |c i| * (2e-15 * h * most ^ i) := by gcongr
    _ = 2e-15 * h * (|c i| * most ^ i) := by ring

theorem abs_add_le_of_mem {a b m h : ℝ} (hleft : a ≤ m - h) (hright : m + h ≤ b) :
    |m| + h ≤ max |a| |b| := by
  obtain ⟨habs, -⟩ | ⟨habs, -⟩ := abs_cases m
  · rw [habs]
    exact le_max_of_le_right (hright.trans (le_abs_self b))
  · rw [habs]
    exact le_max_of_le_left (by linarith [neg_abs_le a])

theorem sum_integral_panels (panels : Nat) (a b : ℚ) {q : ℝ → ℝ} (hq : Continuous q) :
    ∑ panel ∈ Finset.range (max 1 panels),
        ∫ x in (middle panels a b panel - halfWidth panels a b : ℝ)..
          (middle panels a b panel + halfWidth panels a b), q x =
      ∫ x in (a : ℝ)..b, q x := by
  have hends (panel : ℕ) :
      (middle panels a b panel - halfWidth panels a b : ℝ) = leftEnd panels a b panel ∧
        (middle panels a b panel + halfWidth panels a b : ℝ) =
          leftEnd panels a b (panel + 1) := by
    rw [middle_eq, leftEnd_succ]
    push_cast
    constructor <;> ring
  have hfirst : leftEnd panels a b 0 = a := by simp [leftEnd]
  simp only [(hends _).1, (hends _).2]
  rw [intervalIntegral.sum_integral_adjacent_intervals (a := fun k => (leftEnd panels a b k : ℝ))
    fun k _ => hq.intervalIntegrable _ _, hfirst, leftEnd_last]

theorem polynomial_error (panels : Nat) {a b : ℚ} (h : a < b) (c : ℕ → ℝ) :
    |∑ panel ∈ Finset.range (max 1 panels), (halfWidth panels a b : ℝ) *
          nodeSum (fun t => ∑ i ∈ Finset.range 10,
            c i * (middle panels a b panel + halfWidth panels a b * t) ^ i) -
        ∫ x in (a : ℝ)..b, ∑ i ∈ Finset.range 10, c i * x ^ i| ≤
      1e-15 * (b - a) * ∑ i ∈ Finset.range 10, |c i| * max |(a : ℝ)| |(b : ℝ)| ^ i := by
  have hh : (0 : ℝ) ≤ halfWidth panels a b := Rat.cast_nonneg.2 (halfWidth_pos panels h).le
  have hpanel (panel : ℕ) (hp : panel ∈ Finset.range (max 1 panels)) :
      |(middle panels a b panel : ℝ)| + halfWidth panels a b ≤ max |(a : ℝ)| |(b : ℝ)| := by
    have hlast : panel + 1 ≤ max 1 panels := Finset.mem_range.1 hp
    have hleft := (leftEnd_mem h (Nat.le_of_succ_le hlast)).1
    have hright := (leftEnd_mem h hlast).2
    rw [leftEnd_succ] at hright
    refine abs_add_le_of_mem ?_ ?_
    · rw [middle_eq]
      exact_mod_cast (by linarith : a ≤ leftEnd panels a b panel + halfWidth panels a b -
        halfWidth panels a b)
    · rw [middle_eq]
      exact_mod_cast (by linarith : leftEnd panels a b panel + halfWidth panels a b +
        halfWidth panels a b ≤ b)
  have hwidth : 2 * (max 1 panels : ℕ) * (halfWidth panels a b : ℝ) = b - a := by
    exact_mod_cast width_eq panels a b
  rw [← sum_integral_panels panels a b (by fun_prop), ← Finset.sum_sub_distrib]
  refine (Finset.abs_sum_le_sum_abs _ _).trans ((Finset.sum_le_sum fun panel hp =>
    panel_polynomial c hh (hpanel panel hp)).trans_eq ?_)
  rw [Finset.sum_const, Finset.card_range, nsmul_eq_mul, ← hwidth]
  ring

/-- Over a finite interval the rule gives the integral of a polynomial of degree at
most nine up to the digits of its constants. It takes its points strictly inside,
also inside the unit interval, to which infinite ends are brought, and where the
substitution divides by no zero. -/
theorem integralOver_polynomial {ε : Type} (panels : Nat) {a b : ℚ} (h : a < b) :
    (∀ (p : ℚ[X]) (f : ℚ → Except ε ℚ), p.natDegree ≤ 9 →
      (∀ x, a < x → x < b → f x = .ok (p.eval x)) →
      ∃ v : ℚ, integralOver panels (.between a b) f = .ok v ∧
        |(v : ℝ) - ∫ x in (a : ℝ)..b, aeval x p| ≤ 1e-15 * (b - a) *
          ∑ i ∈ Finset.range 10, |(p.coeff i : ℝ)| * max |(a : ℝ)| |(b : ℝ)| ^ i) ∧
    (∀ (substitution : ℚ → ℚ × ℚ) (f : ℚ → Except ε ℚ),
      quadrature panels a b substitution f =
        (points panels a b).foldlM (addPoint substitution f (halfWidth panels a b)) 0) ∧
    (∀ t weight, (t, weight) ∈ points panels a b → a < t ∧ t < b) ∧
    ∀ t weight, (t, weight) ∈ points panels 0 1 →
      stretch t * (1 - t) = t ∧ stretchDerivative t * ((1 - t) * (1 - t)) = 1 := by
  refine ⟨?_, quadrature_eq_foldlM panels a b, fun t weight => points_mem h, ?_⟩
  · intro p f hp hf
    have heval (x : ℝ) : aeval x p = ∑ i ∈ Finset.range 10, (p.coeff i : ℝ) * x ^ i := by
      simp only [aeval_eq_sum_range' (Nat.lt_succ_iff.2 hp), Rat.smul_def]
    have hvalue (x : ℚ) : aeval (x : ℝ) p = p.eval x := by
      rw [heval, eval_eq_sum_range' (Nat.lt_succ_iff.2 hp)]
      push_cast
      rfl
    obtain ⟨v, hv, hsum⟩ := quadrature_ok panels h hf (q := fun x => aeval x p) hvalue
    refine ⟨v, hv, ?_⟩
    rw [hsum]
    simp only [heval]
    exact polynomial_error panels h fun i => p.coeff i
  · intro t weight ht
    exact stretch_mul (points_mem zero_lt_one ht).2

/-- The ninth power, which fails everywhere but inside the interval. -/
theorem integralOver_ninth_power :
    (-1 : ℚ) < 3 ∧ (X ^ 9 : ℚ[X]).natDegree ≤ 9 ∧
      ∃ v : ℚ, integralOver 2 (.between (-1) 3)
          (fun x => if -1 < x ∧ x < 3 then (.ok (x ^ 9) : Except Unit ℚ) else .error ()) = .ok v ∧
        |(v : ℝ) - ∫ x in (-1 : ℝ)..3, x ^ 9| ≤ 1e-15 * 4 * 3 ^ 9 := by
  have h : (-1 : ℚ) < 3 := by norm_num
  have hp : (X ^ 9 : ℚ[X]).natDegree ≤ 9 := natDegree_X_pow_le 9
  have herror := (integralOver_polynomial 2 h).1 (X ^ 9)
    (fun x => if -1 < x ∧ x < 3 then (.ok (x ^ 9) : Except Unit ℚ) else .error ()) hp
    fun x hlow hhigh => by simp [hlow, hhigh]
  refine ⟨h, hp, ?_⟩
  obtain ⟨v, hv, hbound⟩ := herror
  refine ⟨v, hv, ?_⟩
  simp only [map_pow, aeval_X, coeff_X_pow, Finset.sum_range_succ] at hbound
  norm_num at hbound ⊢
  exact hbound

end AnswerKey.Evaluation

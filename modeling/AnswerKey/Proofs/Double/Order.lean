import AnswerKey.Proofs.Double.Canonical
import AnswerKey.Proofs.Double.Swapping

/-! The order of doubles: that of the numbers that they are, between the two
infinities. -/
namespace AnswerKey.Double

open Float.Model (UnpackedFloat)
open Float.Model.UnpackedFloat

theorem Canonical.lt_of_exponent_lt {m n : Nat} {e f : Int} (hm : Canonical m e)
    (hn : Canonical n f) (h : e < f) : (m : ℚ) * 2 ^ e < n * 2 ^ f := by
  have hfull : 2 ^ 52 ≤ n := hn.full.resolve_right fun hf => by
    have := hm.least
    omega
  have hsmall : (m : ℚ) < 2 ^ 53 := by exact_mod_cast hm.small
  have hlarge : (2 : ℚ) ^ 52 ≤ n := by exact_mod_cast hfull
  have hpow : (2 : ℚ) ^ (e + 1) ≤ 2 ^ f := zpow_le_zpow_right₀ (by norm_num) (by omega)
  calc (m : ℚ) * 2 ^ e < 2 ^ 53 * 2 ^ e := by gcongr
    _ = 2 ^ 52 * 2 ^ (e + 1) := by
      rw [zpow_add₀ (by norm_num)]
      ring
    _ ≤ n * 2 ^ f := by gcongr

theorem Canonical.le_of_isLE {m n : Nat} {e f : Int} (hm : Canonical m e) (hn : Canonical n f)
    (h : ((compare e f).then (compare m n)).isLE = true) : (m : ℚ) * 2 ^ e ≤ n * 2 ^ f := by
  rcases lt_trichotomy e f with hlt | rfl | hgt
  · exact (hm.lt_of_exponent_lt hn hlt).le
  · have hle : m ≤ n := Std.isLE_compare.1 (by simpa using h)
    gcongr
  · simp [compare_gt_iff_gt.2 hgt] at h

theorem Canonical.ge_of_swap_isLE {m n : Nat} {e f : Int} (hm : Canonical m e)
    (hn : Canonical n f) (h : ((compare e f).then (compare m n)).swap.isLE = true) :
    (n : ℚ) * 2 ^ f ≤ m * 2 ^ e := by
  refine hn.le_of_isLE hm ?_
  rwa [Ordering.swap_then, ← Std.OrientedCmp.eq_swap, ← Std.OrientedCmp.eq_swap] at h

theorem le_of_ofParts_le {m n : Nat} {e f : Int} {s t : Sign} (hm : Canonical m e)
    (hn : Canonical n f) (h : (ofParts s m e).le (ofParts t n f) = true) :
    signed (isMinus s) m e ≤ signed (isMinus t) n f := by
  have hleft : (0 : ℚ) ≤ m * 2 ^ e := by positivity
  have hright : (0 : ℚ) ≤ n * 2 ^ f := by positivity
  -- Zeros are told apart first, as they are equal whatever their signs.
  by_cases hm0 : m = 0
  · by_cases hn0 : n = 0
    · rw [hm0, hn0, signed_zero, signed_zero]
    · cases t with
      | positive => simpa [hm0, signed, isMinus] using hright
      | negative =>
        rw [ofParts, ofParts, dif_pos hm0, dif_neg hn0] at h
        cases h
  · by_cases hn0 : n = 0
    · cases s with
      | positive =>
        rw [ofParts, ofParts, dif_neg hm0, dif_pos hn0] at h
        cases h
      | negative => simpa [hn0, signed, isMinus] using hleft
    · rw [ofParts, ofParts, dif_neg hm0, dif_neg hn0] at h
      cases s with
      | positive =>
        cases t with
        | positive => simpa [signed, isMinus] using hm.le_of_isLE hn h
        | negative => cases h
      | negative =>
        cases t with
        | positive =>
          simp only [signed, isMinus, if_true, Bool.false_eq_true, if_false]
          linarith
        | negative => simpa [signed, isMinus] using hm.ge_of_swap_isLE hn h

theorem exact_le_exact {x y : Double} {r s : ℚ} (h : x ≤ y) (hx : x.exact = some r)
    (hy : y.exact = some s) : r ≤ s := by
  obtain ⟨f, t, m, e, rfl, hf, hm, -, rfl⟩ := exists_parts hx
  obtain ⟨g, t', n, e', rfl, hg, hn, -, rfl⟩ := exists_parts hy
  refine le_of_ofParts_le hm hn ?_
  rw [← hf, ← hg]
  exact of_decide_eq_true h

/-! Infinities. -/

theorem le_iff {x y : Double} :
    x ≤ y ↔ x.toFloat.toModel.unpack.le y.toFloat.toModel.unpack = true :=
  ⟨of_decide_eq_true, decide_eq_true⟩

theorem lt_iff {x y : Double} :
    x < y ↔ x.toFloat.toModel.unpack.lt y.toFloat.toModel.unpack = true :=
  ⟨of_decide_eq_true, decide_eq_true⟩

theorem unpack_infinity :
    (infinity false).toFloat.toModel.unpack = .infinity .positive ∧
      (infinity true).toFloat.toModel.unpack = .infinity .negative := ⟨rfl, rfl⟩

theorem isNaN_infinity : (infinity false).isNaN = false := rfl

theorem compare_infinity {u : UnpackedFloat} (h : u.isFinite = true) :
    u.compare (.infinity .positive) = some .lt ∧ u.compare (.infinity .negative) = some .gt := by
  cases u with
  | notANumber => cases h
  | infinity s => cases h
  | zero s => exact ⟨rfl, rfl⟩
  | finite s m e hm => cases s <;> exact ⟨rfl, rfl⟩

theorem lt_infinity {x : Double} (h : x.isFinite = true) : x < infinity false := by
  rw [lt_iff, unpack_infinity.1, UnpackedFloat.lt, (compare_infinity h).1]
  rfl

theorem not_infinity_le {x : Double} (h : x.isFinite = true) : ¬infinity false ≤ x := by
  rw [le_iff, unpack_infinity.1, UnpackedFloat.le, compare_flip, (compare_infinity h).1]
  simp

theorem not_le_infinity {x : Double} (h : x.isFinite = true) : ¬x ≤ infinity true := by
  rw [le_iff, unpack_infinity.2, UnpackedFloat.le, (compare_infinity h).2]
  simp

theorem le_infinity {x : Double} (h : x.isNaN = false) : x ≤ infinity false := by
  by_cases hfinite : x.isFinite = true
  · rw [le_iff, unpack_infinity.1, UnpackedFloat.le, (compare_infinity hfinite).1]
    rfl
  · obtain ⟨negative, rfl⟩ := exists_eq_infinity h (Bool.eq_false_of_not_eq_true hfinite)
    cases negative <;> exact le_iff.2 rfl

theorem isNaN_of_le {x y : Double} (h : x ≤ y) : x.isNaN = false := by
  rw [le_iff, UnpackedFloat.le] at h
  cases hx : x.isNaN with
  | false => rfl
  | true =>
    have hparts : x.toFloat.toModel.unpack = notANumber := isNaN_iff.1 hx
    rw [hparts] at h
    cases h

theorem isFinite_of_le_of_le {x y z : Double} (hx : x.isFinite = true) (hz : z.isFinite = true)
    (hxy : x ≤ y) (hyz : y ≤ z) : y.isFinite = true := by
  by_contra hinfinite
  obtain ⟨negative, rfl⟩ := exists_eq_infinity (isNaN_of_le hyz)
    (Bool.eq_false_of_not_eq_true hinfinite)
  cases negative with
  | false => exact not_infinity_le hz hyz
  | true => exact not_le_infinity hx hxy

/-! The larger of two. -/

theorem larger_choice (x y : Double) : larger x y = x ∨ larger x y = y := by
  unfold larger
  split_ifs <;> simp

theorem larger_infinity_left {x : Double} (h : x.isNaN = false) :
    larger (infinity false) x = infinity false := by
  by_cases hfinite : x.isFinite = true
  · have hnot := not_lt_of_lt (lt_infinity hfinite)
    simp [larger, isNaN_infinity, h, hnot]
  · obtain ⟨negative, rfl⟩ := exists_eq_infinity h (Bool.eq_false_of_not_eq_true hfinite)
    cases negative <;> rfl

theorem larger_infinity_right {x : Double} (h : x.isFinite = true) :
    larger x (infinity false) = infinity false := by
  simp [larger, isNaN_of_isFinite h, isNaN_infinity, lt_infinity h]

end AnswerKey.Double

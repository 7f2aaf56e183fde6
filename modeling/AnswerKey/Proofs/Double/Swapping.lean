import AnswerKey.Double.Hypot
import AnswerKey.Proofs.Double.Unpacked

/-! Operations on doubles whose operands change places: a difference keeps its
magnitude, a length and the larger of two do not notice. -/
namespace AnswerKey.Double

open Float.Model (UnpackedFloat Format)
open Float.Model.UnpackedFloat

/-! Differences. -/

theorem abs_round (s : Sign) (mantissa : Nat) (exponent : Int) :
    (UnpackedFloat.round .binary64 s mantissa exponent).abs =
      UnpackedFloat.round .binary64 .positive mantissa exponent := by
  simp only [UnpackedFloat.round, roundWithAccuracy]
  split <;> rfl

theorem abs_normalize_neg (mantissa exponent : Int) (zeroSign : Sign) :
    (UnpackedFloat.normalize .binary64 (-mantissa) exponent zeroSign).abs =
      (UnpackedFloat.normalize .binary64 mantissa exponent zeroSign).abs := by
  rcases lt_trichotomy mantissa 0 with hneg | rfl | hpos
  · have hlt : compare mantissa 0 = .lt := compare_lt_iff_lt.2 hneg
    have hgt : compare (-mantissa) 0 = .gt := compare_gt_iff_gt.2 (by omega)
    simp only [UnpackedFloat.normalize, hlt, hgt, abs_round]
  · rfl
  · have hgt : compare mantissa 0 = .gt := compare_gt_iff_gt.2 hpos
    have hlt : compare (-mantissa) 0 = .lt := compare_lt_iff_lt.2 (by omega)
    simp only [UnpackedFloat.normalize, hlt, hgt, abs_round, neg_neg]

theorem abs_unpacked_sub_comm (u v : UnpackedFloat) :
    (UnpackedFloat.sub .binary64 u v).abs = (UnpackedFloat.sub .binary64 v u).abs := by
  cases u with
  | notANumber => cases v <;> rfl
  | infinity s =>
    cases v with
    | infinity t => cases s <;> cases t <;> rfl
    | _ => rfl
  | zero s =>
    cases v with
    | zero t => cases s <;> cases t <;> rfl
    | _ => rfl
  | finite s m e hm =>
    cases v with
    | finite t n f hn =>
      simp only [UnpackedFloat.sub, min_comm f e]
      rw [← abs_normalize_neg, neg_sub]
    | _ => rfl

theorem abs_sub_toModel (f g : Float) : (f - g).toModel.unpack.abs =
    unpack .binary64 (pack .binary64
      (UnpackedFloat.sub .binary64 f.toModel.unpack g.toModel.unpack).abs) :=
  abs_unpack_pack (UnpackedFloat.sub .binary64 f.toModel.unpack g.toModel.unpack)

theorem abs_sub_comm_float (f g : Float) :
    (f - g).toModel.unpack.abs = (g - f).toModel.unpack.abs := by
  rw [abs_sub_toModel, abs_sub_toModel, abs_unpacked_sub_comm]

/-- Two differences that are no numbers may have other signs, which `abs` drops
as well. -/
theorem abs_sub_comm (x y : Double) : (x - y).abs = (y - x).abs := by
  cases x with
  | nan s => cases y <;> rfl
  | number f =>
    cases y with
    | nan s => rfl
    | number g =>
      have hparts := abs_sub_comm_float f g
      have hnan : (f - g).isNaN = (g - f).isNaN := by
        show (f - g).toModel.unpack.isNaN = (g - f).toModel.unpack.isNaN
        rw [← isNaN_abs, hparts, isNaN_abs]
      show (ofResult (f - g)).abs = (ofResult (g - f)).abs
      cases hresult : (g - f).isNaN with
      | true => simp only [ofResult, hnan, hresult, if_true]
      | false =>
        simp only [ofResult, hnan, hresult, Bool.false_eq_true, if_false]
        show number (.ofModel (.pack (f - g).toModel.unpack.abs)) =
          number (.ofModel (.pack (g - f).toModel.unpack.abs))
        rw [hparts]

/-! Lengths. -/

inductive Shape.UpToSign : Shape → Shape → Prop
  | nan (s t : Bool) : UpToSign (.nan s) (.nan t)
  | infinite (s t : Bool) : UpToSign (.infinite s) (.infinite t)
  | finite (s t : Bool) (m : Nat) (e : Int) : UpToSign (.finite s m e) (.finite t m e)

theorem Shape.upToSign_of_unsigned {u v : Shape} (h : u.unsigned = v.unsigned) :
    UpToSign u v := by
  cases u with
  | nan s => cases v with
    | nan t => exact .nan s t
    | _ => simp [unsigned] at h
  | infinite s => cases v with
    | infinite t => exact .infinite s t
    | _ => simp [unsigned] at h
  | finite s m e => cases v with
    | finite t n f =>
      obtain ⟨rfl, rfl⟩ : m = n ∧ e = f := by simpa [unsigned] using h
      exact .finite s t m e
    | _ => simp [unsigned] at h

theorem shape_upToSign {x y : Double} (h : x.abs = y.abs) : x.shape.UpToSign y.shape :=
  Shape.upToSign_of_unsigned (by rw [← shape_abs_eq, ← shape_abs_eq, h])

theorem hypot_congr {x x' y y' : Double} (hx : x.abs = x'.abs) (hy : y.abs = y'.abs) :
    (hypot x y).toFloat = (hypot x' y').toFloat := by
  have hxs := shape_upToSign hx
  have hys := shape_upToSign hy
  unfold hypot
  generalize h : x.shape = u, h' : x'.shape = u', k : y.shape = v, k' : y'.shape = v' at hxs hys ⊢
  cases hxs with
  | infinite => rfl
  | nan =>
    cases hys with
    | infinite => rfl
    | nan | finite => exact (toFloat_of_shape_nan h).trans (toFloat_of_shape_nan h').symm
  | finite =>
    cases hys with
    | infinite => rfl
    | nan => exact (toFloat_of_shape_nan k).trans (toFloat_of_shape_nan k').symm
    | finite => simp only [hx, hy]

/-! The larger of two. -/

theorem compare_flip (u v : UnpackedFloat) :
    v.compare u = (u.compare v).map Ordering.swap := by
  cases u with
  | notANumber => cases v <;> rfl
  | infinity s => cases s <;> cases v with
    | infinity t => cases t <;> rfl
    | _ => rfl
  | zero s => cases v with
    | infinity t => cases t <;> rfl
    | finite t n f hn => cases t <;> rfl
    | _ => rfl
  | finite s m e hm => cases s <;> cases v with
    | infinity t => cases t <;> rfl
    | finite t n f hn =>
      cases t <;>
        simp [UnpackedFloat.compare, Ordering.swap_then, Std.OrientedCmp.eq_swap (a := f) (b := e),
          Std.OrientedCmp.eq_swap (a := n) (b := m)]
    | _ => rfl

theorem isNaN_of_compare {u v : UnpackedFloat} (h : u.compare v = none) :
    u.isNaN = true ∨ v.isNaN = true := by
  revert h
  fun_cases UnpackedFloat.compare u v <;> simp [UnpackedFloat.isNaN]

theorem compare_eq_of_not_lt {u v : UnpackedFloat} (hu : u.isNaN = false) (hv : v.isNaN = false)
    (h : ¬u.lt v = true) (h' : ¬v.lt u = true) : u.compare v = some .eq := by
  cases hc : u.compare v with
  | none =>
    rcases isNaN_of_compare hc with hnan | hnan
    · simp [hu] at hnan
    · simp [hv] at hnan
  | some o =>
    cases o with
    | lt => exact absurd (by rw [UnpackedFloat.lt, hc]; rfl) h
    | eq => rfl
    | gt => exact absurd (by rw [UnpackedFloat.lt, compare_flip, hc]; rfl) h'

theorem not_lt_of_lt {x y : Double} (h : x < y) : ¬y < x := by
  intro h'
  have hless : x.toFloat.toModel.unpack.compare y.toFloat.toModel.unpack = some .lt :=
    eq_of_beq (of_decide_eq_true h)
  have hless' : y.toFloat.toModel.unpack.compare x.toFloat.toModel.unpack = some .lt :=
    eq_of_beq (of_decide_eq_true h')
  rw [compare_flip, hless] at hless'
  cases hless'

/-- The order of two doubles matters where they are zeros of both signs, but one
is larger than these. -/
theorem larger_larger_one_comm (x y : Double) : larger (larger x y) 1 = larger (larger y x) 1 := by
  have hone : (1 : Double).isNaN = false := rfl
  cases hx : x.isNaN with
  | true => cases hy : y.isNaN <;> simp [larger, hx, hy, hone]
  | false =>
    cases hy : y.isNaN with
    | true => simp [larger, hx, hy, hone]
    | false =>
      by_cases hlt : x < y
      · have hnot := not_lt_of_lt hlt
        simp [larger, hx, hy, hlt, hnot]
      · by_cases hgt : y < x
        · simp [larger, hx, hy, hlt, hgt]
        · cases x with
          | nan s => simp [isNaN_nan] at hx
          | number f =>
            cases y with
            | nan s => simp [isNaN_nan] at hy
            | number g =>
              have hcompare : f.toModel.unpack.compare g.toModel.unpack = some .eq :=
                compare_eq_of_not_lt hx hy (fun h => hlt (decide_eq_true h))
                  (fun h => hgt (decide_eq_true h))
              have heq : (f == g) = true := by
                show (f.toModel.unpack.compare g.toModel.unpack == some .eq) = true
                rw [hcompare]
                rfl
              obtain ⟨-, -, rfl | ⟨rfl, rfl⟩ | ⟨rfl, rfl⟩⟩ := Float.beq_iff_ne_nan_and_eq.1 heq
              · rfl
              · rfl
              · rfl

end AnswerKey.Double

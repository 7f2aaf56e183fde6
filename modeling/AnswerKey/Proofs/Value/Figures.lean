import AnswerKey.Proofs.Double.Encoding
import AnswerKey.Proofs.Token.Scanning
import AnswerKey.Proofs.Value.Plain

/-! Numbers that are read from figures: they have a plus sign, and so has their
text, which is that of no word but infinity's. -/
namespace AnswerKey

namespace Double

open Float.Model (Format)
open Float.Model.UnpackedFloat

def HasPlusSign (x : Double) : Prop :=
  ∃ bits ≤ 2047 * 2 ^ 52, x = number (.ofBits (UInt64.ofNat bits))

theorem hasPlusSign_infinity : HasPlusSign (infinity false) := ⟨2047 * 2 ^ 52, Nat.le_refl _, rfl⟩

theorem hasPlusSign_encode (mantissa : Nat) (exponent : Int) :
    HasPlusSign (encode false mantissa exponent) := by
  unfold encode
  simp only
  split
  · exact hasPlusSign_infinity
  · next hlt =>
    refine ⟨_, Nat.le_of_not_le hlt, ?_⟩
    rw [if_neg Bool.false_ne_true, Nat.zero_add]

theorem hasPlusSign_nearest (num den : Nat) : HasPlusSign (nearest false num den) := by
  unfold nearest
  split
  · exact hasPlusSign_encode _ _
  · exact hasPlusSign_encode _ _

theorem isFinite_unpack {b : BitVec Format.binary64.numBits} (h : b.toNat < 2047 * 2 ^ 52) :
    (unpack .binary64 b).isFinite = true := by
  have hexponent : unpackExponent b ≠ -1#_ := by
    intro hall
    have hfield := congrArg BitVec.toNat hall
    rw [toNat_unpackExponent] at hfield
    have hnat : b.toNat / 2 ^ 52 % 2 ^ 11 = 2047 := hfield
    omega
  unfold unpack
  simp only [if_neg hexponent]
  split
  · split <;> rfl
  · rfl

theorem HasPlusSign.cases {x : Double} (h : x.HasPlusSign) : x = infinity false ∨
    x.isFinite = true ∧ ∃ mantissa exponent, x.shape = .finite false mantissa exponent := by
  obtain ⟨bits, hbits, rfl⟩ := h
  by_cases hlast : bits = 2047 * 2 ^ 52
  · exact .inl (hlast ▸ rfl)
  have hfinite : (number (.ofBits (UInt64.ofNat bits))).isFinite = true :=
    isFinite_unpack ((toNat_toBits hbits).trans_lt (Nat.lt_of_le_of_ne hbits hlast))
  have hfield : ¬bits / Nat.pow 2 fractionBits % Nat.pow 2 11 = 2047 := by
    simp only [fractionBits, Nat.pow_eq]
    omega
  have hsign : decide (bits ≥ Nat.pow 2 63) = false := by
    refine decide_eq_false ?_
    simp only [Nat.pow_eq]
    omega
  refine .inr ⟨hfinite, ?_⟩
  rw [shape_ofBits hbits, shapeOfBits]
  simp only [if_neg hfield, hsign]
  split
  · exact ⟨_, _, rfl⟩
  · exact ⟨_, _, rfl⟩

end Double

namespace Decimal

open Double (HasPlusSign hasPlusSign_infinity hasPlusSign_encode hasPlusSign_nearest)

theorem hasPlusSign_toDouble (d : Decimal) : (toDouble false d).HasPlusSign := by
  unfold toDouble
  split
  · exact hasPlusSign_encode _ _
  split
  · exact hasPlusSign_infinity
  split
  · exact hasPlusSign_encode _ _
  split
  · exact hasPlusSign_nearest _ _
  · exact hasPlusSign_nearest _ _

theorem IsFigure.not_isAlpha {c : Char} (h : IsFigure c) : c.isAlpha = false := by
  refine Bool.eq_false_iff.2 fun halpha => ?_
  rcases h with h | rfl
  · rw [Lexeme.isDigit_of_isAlpha halpha] at h
    cases h
  · cases halpha

theorem map_toLower_ne {cs word : List Char} (h : ∀ c ∈ cs, IsFigure c)
    (hword : word.head?.any Char.isAlpha = true) : cs.map Char.toLower ≠ word := by
  rintro rfl
  cases cs with
  | nil => cases hword
  | cons c cs =>
    have halpha : c.toLower.isAlpha = true := hword
    rw [Char.isAlpha_toLower_eq_isAlpha, (h c List.mem_cons_self).not_isAlpha] at halpha
    cases halpha

theorem hasPlusSign_of_read {cs : List Char} {x : Double} (h : ∀ c ∈ cs, IsFigure c)
    (hx : read? cs = some x) : x.HasPlusSign := by
  have hwords : infinityWords.contains (cs.map Char.toLower) = false := by
    refine Bool.eq_false_iff.2 fun hmem => ?_
    have all : ∀ word ∈ infinityWords, word.head?.any Char.isAlpha = true := by decide
    exact map_toLower_ne h (all _ (List.contains_iff_mem.1 hmem)) rfl
  have hnan : cs.map Char.toLower ≠ "nan".toList := map_toLower_ne h (by decide)
  simp only [read?, sign_of_figures h] at hx
  split at hx
  · next d hd => exact Option.some.inj hx ▸ hasPlusSign_toDouble d
  · rw [if_neg (Bool.eq_false_iff.1 hwords), if_neg hnan] at hx
    cases hx

theorem plain_infinity : plain (Double.infinity false) = "inf" := by
  rw [plain, Double.shape_infinity]
  rfl

theorem plain_of_hasPlusSign {x : Double} (h : x.HasPlusSign) :
    (x = Double.infinity false ∧ plain x = "inf") ∨
      (x.isFinite = true ∧ IsUnsigned (plain x).toList) := by
  rcases h.cases with rfl | ⟨hfinite, mantissa, exponent, hx⟩
  · exact .inl ⟨rfl, plain_infinity⟩
  · refine .inr ⟨hfinite, ?_⟩
    simp only [plain, hx, toList_signed, Bool.false_eq_true, if_false]
    split
    · exact ⟨by simp, by simp [IsFigure]⟩
    · exact isUnsigned_positional _

theorem not_isUnsigned_inf : ¬IsUnsigned "inf".toList := by
  intro h
  have hi := (h.figure 'i' (by simp)).not_isAlpha
  cases hi

/-- If the texts of finite numbers tell them apart, so do those of all numbers with
plus signs. -/
theorem eq_of_plain_eq {a b : Double} (ha : a.HasPlusSign) (hb : b.HasPlusSign)
    (h : plain a = plain b) (hfinite : a.isFinite = true → b.isFinite = true → a = b) : a = b := by
  rcases plain_of_hasPlusSign ha with ⟨rfl, hat⟩ | ⟨haf, hau⟩
  · rcases plain_of_hasPlusSign hb with ⟨rfl, -⟩ | ⟨-, hbu⟩
    · rfl
    · rw [← h, hat] at hbu
      exact absurd hbu not_isUnsigned_inf
  · rcases plain_of_hasPlusSign hb with ⟨-, hbt⟩ | ⟨hbf, -⟩
    · rw [h, hbt] at hau
      exact absurd hau not_isUnsigned_inf
    · exact hfinite haf hbf

end Decimal

end AnswerKey

import AnswerKey.Decimal.Notation
import AnswerKey.Decimal.Numeral
import AnswerKey.Proofs.Double.Magnitude

/-! The characters of a plain number, and what is read of them. -/
namespace AnswerKey

deriving instance DecidableEq for Double

namespace Decimal

def IsFigure (c : Char) : Prop := c.isDigit = true ∨ c = '.'

structure IsUnsigned (cs : List Char) : Prop where
  nonempty : cs ≠ []
  figure : ∀ c ∈ cs, IsFigure c

theorem isFigure_of_mem_digitChars {n : Nat} {c : Char} (h : c ∈ digitChars n) : IsFigure c :=
  .inl (Nat.isDigit_of_mem_toDigits (by decide) (by decide) h)

theorem isFigure_of_mem_zeros {n : Nat} {c : Char} (h : c ∈ zeros n) : IsFigure c := by
  rw [List.eq_of_mem_replicate h]
  exact .inl (by decide)

theorem isUnsigned_positional (d : Decimal) : IsUnsigned (positional d) := by
  have hdigits : ∀ c ∈ digitChars d.digits, IsFigure c := fun c => isFigure_of_mem_digitChars
  by_cases hexponent : 0 ≤ d.exponent
  · simp only [positional, if_pos hexponent]
    refine ⟨fun h => Nat.toDigits_ne_nil (List.append_eq_nil_iff.1 h).1, fun c hc => ?_⟩
    rcases List.mem_append.1 hc with hc | hc
    · exact hdigits c hc
    · exact isFigure_of_mem_zeros hc
  by_cases hplaces : (-d.exponent).toNat < (digitChars d.digits).length
  · simp only [positional, if_neg hexponent, if_pos hplaces]
    refine ⟨by simp, fun c hc => ?_⟩
    simp only [List.mem_append, List.mem_cons] at hc
    obtain hc | rfl | hc := hc
    · exact hdigits c (List.mem_of_mem_take hc)
    · exact .inr rfl
    · exact hdigits c (List.mem_of_mem_drop hc)
  · simp only [positional, if_neg hexponent, if_neg hplaces]
    refine ⟨by simp, fun c hc => ?_⟩
    simp only [List.mem_append, List.mem_cons] at hc
    obtain (rfl | rfl | hc) | hc := hc
    · exact .inl (by decide)
    · exact .inr rfl
    · exact isFigure_of_mem_zeros hc
    · exact hdigits c hc

theorem toList_signed (negative : Bool) (cs : List Char) :
    (signed negative cs).toList = if negative then '-' :: cs else cs := by
  simp [signed]

theorem exists_plain {x : Double} (h : x.isFinite = true) : ∃ cs, IsUnsigned cs ∧
    (plain x).toList = (if x.isNegative then '-' :: cs else cs) ∧ (plain x.abs).toList = cs := by
  obtain ⟨negative, mantissa, exponent, hx, habs⟩ := Double.shape_abs h
  have hnegative : x.isNegative = negative := by simp [Double.isNegative, hx]
  refine ⟨if mantissa = 0 then ['0'] else positional (shortest .up mantissa exponent), ?_, ?_, ?_⟩
  · by_cases hzero : mantissa = 0
    · rw [if_pos hzero]
      exact ⟨by simp, by simp [IsFigure]⟩
    · rw [if_neg hzero]
      exact isUnsigned_positional _
  · simp only [plain, hx, hnegative, toList_signed]
  · simp only [plain, habs, toList_signed]
    rfl

theorem IsFigure.ne {c d : Char} (h : IsFigure c) (hd : d.isDigit = false) (hpoint : d ≠ '.') :
    c ≠ d := by
  rintro rfl
  obtain h | h := h
  · simp [hd] at h
  · exact hpoint h

theorem sign_of_figures {cs : List Char} (h : ∀ c ∈ cs, IsFigure c) : sign cs = (false, cs) := by
  cases cs with
  | nil => rfl
  | cons c cs =>
    have hc : IsFigure c := h c List.mem_cons_self
    have hminus : c ≠ '-' := hc.ne (by decide) (by decide)
    have hplus : c ≠ '+' := hc.ne (by decide) (by decide)
    simp [sign, hminus, hplus]

theorem read?_plus {cs : List Char} (h : sign cs = (false, cs)) :
    read? ('+' :: cs) = read? cs := by
  simp only [read?, h]
  rfl

def ReadsBack (x : Double) : Prop := read? (plain x).toList = some x

instance (x : Double) : Decidable (ReadsBack x) :=
  inferInstanceAs (Decidable (read? (plain x).toList = some x))

theorem exists_magnitude {x : Double} (h : x.isNaN = false) : ∃ cs, sign cs = (false, cs) ∧
    (plain x).toList = (if x.isNegative then '-' :: cs else cs) ∧ (plain x.abs).toList = cs := by
  cases hfinite : x.isFinite with
  | true =>
    obtain ⟨cs, hcs, hplain, habs⟩ := exists_plain hfinite
    exact ⟨cs, sign_of_figures hcs.figure, hplain, habs⟩
  | false =>
    obtain ⟨negative, rfl⟩ := Double.exists_eq_infinity h hfinite
    refine ⟨"inf".toList, rfl, ?_, ?_⟩ <;> cases negative <;> decide +kernel

/-- The words for the infinities are read back, so only finite numbers are in question. -/
theorem readsBack_of_isFinite {x : Double} (h : x.isNaN = false)
    (hback : x.isFinite = true → ReadsBack x) : ReadsBack x := by
  cases hfinite : x.isFinite with
  | true => exact hback hfinite
  | false =>
    obtain ⟨negative, rfl⟩ := Double.exists_eq_infinity h hfinite
    cases negative <;> decide +kernel

end Decimal

end AnswerKey

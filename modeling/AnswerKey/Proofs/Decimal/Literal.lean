import AnswerKey.Proofs.Value.Figures

/-! Decimal literals: what is left of one behind a digit, and the number that is
read from one. -/
namespace AnswerKey.Decimal

/-- Digits, with at most one point and at least one digit. -/
inductive IsLiteral : List Char → Prop
  | integer {ds : List Char} (nonempty : ds ≠ []) (digits : ∀ c ∈ ds, c.isDigit = true) :
      IsLiteral ds
  | decimal {ds fs : List Char} (digits : ∀ c ∈ ds, c.isDigit = true)
      (decimals : ∀ c ∈ fs, c.isDigit = true) (nonempty : ds ≠ [] ∨ fs ≠ []) :
      IsLiteral (ds ++ '.' :: fs)

theorem isLiteral_digit {d : Char} (h : d.isDigit = true) : IsLiteral [d] :=
  .integer (List.cons_ne_nil _ _) (by simpa using h)

namespace IsLiteral

variable {cs : List Char} {d : Char}

theorem figure (h : IsLiteral cs) : ∀ c ∈ cs, IsFigure c := by
  cases h with
  | integer _ digits => exact fun c hc => .inl (digits c hc)
  | decimal digits decimals =>
    intro c hc
    simp only [List.mem_append, List.mem_cons] at hc
    obtain hc | rfl | hc := hc
    · exact .inl (digits c hc)
    · exact .inr rfl
    · exact .inl (decimals c hc)

theorem behind_digit (h : IsLiteral (d :: cs)) (hd : d.isDigit = true) (hcs : cs ≠ []) :
    IsLiteral cs ∨ cs = ['.'] := by
  generalize htext : d :: cs = text at h
  cases h with
  | integer _ digits =>
    subst htext
    exact .inl (.integer hcs fun c hc => digits c (List.mem_cons_of_mem d hc))
  | @decimal ds fs digits decimals nonempty =>
    cases ds with
    | nil =>
      obtain ⟨rfl, -⟩ := List.cons.inj htext
      simp [Lexeme.isDigit_point] at hd
    | cons e ds =>
      obtain ⟨-, rfl⟩ := List.cons.inj htext
      by_cases hrest : ds ≠ [] ∨ fs ≠ []
      · exact .inl (.decimal (fun c hc => digits c (List.mem_cons_of_mem e hc)) decimals hrest)
      · simp only [not_or, not_not] at hrest
        simp [hrest]

theorem mantissa (h : IsLiteral cs) : ∃ whole places, mantissa? cs = some (whole, places, []) := by
  cases h with
  | integer nonempty digits =>
    obtain ⟨htake, hdrop⟩ := takeWhile_of_all (b := []) digits (by simp)
    rw [List.append_nil] at htake hdrop
    exact ⟨cs, [], by simp [mantissa?, htake, hdrop, nonempty]⟩
  | @decimal ds fs digits decimals nonempty =>
    obtain ⟨htake, hdrop⟩ := takeWhile_of_all (b := '.' :: fs) digits
      (by simp [Lexeme.isDigit_point])
    obtain ⟨hplaces, hend⟩ := takeWhile_of_all (b := []) decimals (by simp)
    rw [List.append_nil] at hplaces hend
    have hsome : ¬(ds = [] ∧ fs = []) := by
      rintro ⟨rfl, rfl⟩
      simp at nonempty
    exact ⟨ds, fs, by simp [mantissa?, htake, hdrop, hplaces, hend, hsome]⟩

theorem read (h : IsLiteral cs) : ∃ x, read? cs = some x ∧ x.HasPlusSign := by
  obtain ⟨whole, places, hmantissa⟩ := h.mantissa
  have hunsigned : unsigned? cs = some ⟨natOfDigits (whole ++ places), 0 - places.length⟩ := by
    simp [unsigned?, hmantissa, exponent?]
  have hread : read? cs =
      some (toDouble false ⟨natOfDigits (whole ++ places), 0 - places.length⟩) := by
    simp only [read?, sign_of_figures h.figure, hunsigned]
  exact ⟨_, hread, hasPlusSign_of_read h.figure hread⟩

end IsLiteral

theorem read?_point : read? ['.'] = none := by decide

end AnswerKey.Decimal

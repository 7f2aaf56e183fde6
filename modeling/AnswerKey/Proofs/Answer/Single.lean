import AnswerKey.Answer

/-! Answers that consist of one expression. -/
namespace AnswerKey.Answer

/-- The expression of an answer that is read as one member without a fault. -/
def single? (declared : List String) (latex : String) : Option Expr :=
  match read declared latex with
  | .ok [m] => m.expr.toOption
  | _ => none

theorem single?_eq_some {declared : List String} {latex : String} {x : Expr} :
    single? declared latex = some x ↔ ∃ source, read declared latex = .ok [⟨source, .ok x⟩] := by
  unfold single?
  constructor
  · intro h
    split at h
    · next m hm =>
      obtain ⟨source, expr⟩ := m
      cases expr with
      | error e => simp [Except.toOption] at h
      | ok y =>
        obtain rfl : y = x := by simpa [Except.toOption] using h
        exact ⟨source, hm⟩
    · simp at h
  · rintro ⟨source, h⟩
    simp [h, Except.toOption]

end AnswerKey.Answer

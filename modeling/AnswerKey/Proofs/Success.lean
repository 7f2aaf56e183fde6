/-! What it takes for a chain of steps that may fail to succeed. -/
namespace AnswerKey

variable {ε δ α β γ : Type}

@[simp] theorem bind_eq_ok {a : Except ε α} {f : α → Except ε β} {y : β} :
    (a >>= f) = .ok y ↔ ∃ x, a = .ok x ∧ f x = .ok y := by
  cases a <;> simp [bind, Except.bind]

theorem bind_eq_error {a : Except ε α} {f : α → Except ε β} {e : ε} :
    (a >>= f) = .error e ↔ a = .error e ∨ ∃ x, a = .ok x ∧ f x = .error e := by
  cases a <;> simp [bind, Except.bind]

/-! The error of a few steps whose results are put together is one of theirs. -/

section

variable {a : Except ε α} {b : Except ε β} {c : Except ε γ} {e : ε}

theorem error_of_one {f : α → δ} (h : (do return f (← a)) = .error e) : a = .error e := by
  obtain h | ⟨x, -, h⟩ := bind_eq_error.1 h
  · exact h
  · cases h

theorem error_of_two {f : α → β → δ} (h : (do return f (← a) (← b)) = .error e) :
    a = .error e ∨ b = .error e := by
  obtain h | ⟨x, -, h⟩ := bind_eq_error.1 h
  · exact .inl h
  · exact .inr (error_of_one h)

theorem error_of_three {f : α → β → γ → δ} (h : (do return f (← a) (← b) (← c)) = .error e) :
    a = .error e ∨ b = .error e ∨ c = .error e := by
  obtain h | ⟨x, -, h⟩ := bind_eq_error.1 h
  · exact .inl h
  · exact .inr (error_of_two h)

end

@[simp] theorem map_eq_ok {a : Except ε α} {f : α → β} {y : β} :
    (f <$> a) = .ok y ↔ ∃ x, a = .ok x ∧ f x = y := by
  cases a <;> simp [Functor.map, Except.map]

@[simp] theorem pure_eq_ok {x y : α} : (pure x : Except ε α) = .ok y ↔ x = y := by
  simp [pure, Except.pure]

@[simp] theorem mapError_ok {g : ε → δ} {x : α} : (Except.ok x).mapError g = .ok x := rfl

@[simp] theorem mapError_error {g : ε → δ} {e : ε} :
    (Except.error e : Except ε α).mapError g = .error (g e) := rfl

@[simp] theorem mapError_eq_ok {a : Except ε α} {g : ε → δ} {y : α} :
    a.mapError g = .ok y ↔ a = .ok y := by
  cases a <;> simp

@[simp] theorem toOption_eq_some {a : Except ε α} {x : α} : a.toOption = some x ↔ a = .ok x := by
  cases a <;> simp [Except.toOption]

end AnswerKey

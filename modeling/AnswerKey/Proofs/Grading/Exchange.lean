import AnswerKey.Grading.Comparison
import AnswerKey.Proofs.Double.Swapping
import AnswerKey.Proofs.Grading.Verdicts

/-! Comparing two outcomes the other way round. -/
namespace AnswerKey

/-- Both sides of the bound are the same double whichever value comes first. -/
theorem Value.approxEq_comm (tolerance : Double) (a b : Value) :
    a.approxEq tolerance b = b.approxEq tolerance a := by
  have hnorm : (a.toComplex - b.toComplex).norm.toFloat =
      (b.toComplex - a.toComplex).norm.toFloat :=
    Double.hypot_congr (Double.abs_sub_comm _ _) (Double.abs_sub_comm _ _)
  have hlarger := Double.larger_larger_one_comm a.magnitude b.magnitude
  refine decide_eq_decide.2 ?_
  show _ ≤ (_ : Double).toFloat ↔ _ ≤ (_ : Double).toFloat
  rw [hnorm, hlarger]

namespace Grading

def Mismatch.exchanged : Mismatch → Mismatch
  | solutionFailed message => modelFailed message
  | modelFailed message => solutionFailed message
  | malformedNumber e => malformedNumber e
  | countMismatch solution model => countMismatch model solution
  | valueMismatch index solution model => valueMismatch index model solution

theorem firstDifference_exchanged (tolerance : Double) (as bs : List Value) (index : Nat) :
    firstDifference tolerance index bs as =
      (firstDifference tolerance index as bs).map Mismatch.exchanged := by
  induction as generalizing bs index with
  | nil => cases bs <;> rfl
  | cons a as ih =>
    cases bs with
    | nil => rfl
    | cons b bs =>
      rw [firstDifference, firstDifference, Value.approxEq_comm tolerance b a]
      split
      · exact ih bs (index + 1)
      · rfl

theorem exists_of_slotValue_error {slot : Option Reported} {m : Mismatch}
    (h : slotValue slot = .error m) : ∃ e, m = .malformedNumber e := by
  cases slot with
  | none =>
    cases h
    exact ⟨_, rfl⟩
  | some r =>
    cases hr : r.toValue with
    | ok v => simp [slotValue, hr] at h
    | error e =>
      simp only [slotValue, hr, mapError_error, Except.error.injEq] at h
      exact ⟨e, h.symm⟩

theorem exists_of_slotValues_error {results : List (Option Reported)} {m : Mismatch}
    (h : slotValues results = .error m) : ∃ e, m = .malformedNumber e := by
  induction results with
  | nil => cases h
  | cons slot rest ih =>
    rw [slotValues, bind_eq_error] at h
    obtain hslot | ⟨v, -, hrest⟩ := h
    · exact exists_of_slotValue_error hslot
    · obtain hrest | ⟨vs, -, hpure⟩ := bind_eq_error.1 hrest
      · exact ih hrest
      · cases hpure

variable {a b : Outcome} {tolerance : Double}

theorem compare_malformed (ha : a.success = true) (hb : b.success = true) {m : Mismatch}
    (h : slotValues a.results = .error m ∨ slotValues b.results = .error m) :
    ∃ e, compare a b tolerance = .error (.malformedNumber e) := by
  simp only [compare, ha, hb, Bool.not_true, Bool.false_eq_true, if_false]
  cases has : slotValues a.results with
  | error n =>
    obtain ⟨e, rfl⟩ := exists_of_slotValues_error has
    exact ⟨e, rfl⟩
  | ok as =>
    have hbs : slotValues b.results = .error m := h.resolve_left (by simp [has])
    obtain ⟨e, rfl⟩ := exists_of_slotValues_error hbs
    rw [hbs]
    exact ⟨e, rfl⟩

theorem compare_values_exchanged (ha : a.success = true) (hb : b.success = true)
    {as bs : List Value} (has : slotValues a.results = .ok as)
    (hbs : slotValues b.results = .ok bs) :
    compare b a tolerance = (compare a b tolerance).mapError Mismatch.exchanged := by
  rw [compare_of_slotValues ha hb has hbs, compare_of_slotValues hb ha hbs has,
    firstDifference_exchanged tolerance as bs]
  by_cases hcount : as.length = bs.length
  · rw [if_neg (by simp [hcount]), if_neg (by simp [hcount])]
    cases firstDifference tolerance 0 as bs <;> rfl
  · rw [if_pos hcount, if_pos (Ne.symm hcount)]
    rfl

/-- Two successful outcomes are told apart by the same fault in exchanged roles,
unless both orders stop at a slot without a value, each at its own first one. -/
theorem compare_exchanged_or_malformed (tolerance : Double) (ha : a.success = true)
    (hb : b.success = true) :
    compare b a tolerance = (compare a b tolerance).mapError Mismatch.exchanged ∨
      (∃ e, compare a b tolerance = .error (.malformedNumber e)) ∧
        ∃ e, compare b a tolerance = .error (.malformedNumber e) := by
  cases has : slotValues a.results with
  | error m =>
    exact .inr ⟨compare_malformed ha hb (.inl has), compare_malformed hb ha (.inr has)⟩
  | ok as =>
    cases hbs : slotValues b.results with
    | error m =>
      exact .inr ⟨compare_malformed ha hb (.inr hbs), compare_malformed hb ha (.inl hbs)⟩
    | ok bs => exact .inl (compare_values_exchanged ha hb has hbs)

theorem compare_ne_ok_of_failed (h : a.success = false ∨ b.success = false) :
    compare a b tolerance ≠ .ok () := by
  intro hok
  cases ha : a.success with
  | false =>
    rw [compare, ha] at hok
    cases hok
  | true =>
    rw [compare, ha, h.resolve_left (by simp [ha])] at hok
    cases hok

theorem compare_ok_of_exchanged (h : compare a b tolerance = .ok ()) :
    compare b a tolerance = .ok () := by
  have ha : a.success = true := by
    by_contra hfailed
    exact compare_ne_ok_of_failed (.inl (Bool.eq_false_of_not_eq_true hfailed)) h
  have hb : b.success = true := by
    by_contra hfailed
    exact compare_ne_ok_of_failed (.inr (Bool.eq_false_of_not_eq_true hfailed)) h
  obtain hexchanged | ⟨⟨e, he⟩, -⟩ := compare_exchanged_or_malformed tolerance ha hb
  · rw [hexchanged, h]
    rfl
  · simp [h] at he

theorem compare_error_of_exchanged (ha : a.success = true) (hb : b.success = true)
    {m : Mismatch} (hm : ∀ e, m ≠ .malformedNumber e) (h : compare a b tolerance = .error m) :
    compare b a tolerance = .error m.exchanged := by
  obtain hexchanged | ⟨⟨e, he⟩, -⟩ := compare_exchanged_or_malformed tolerance ha hb
  · rw [hexchanged, h]
    rfl
  · rw [h] at he
    exact absurd (Except.error.inj he) (hm e)

theorem compare_malformed_of_exchanged (ha : a.success = true) (hb : b.success = true)
    (h : ∃ e, compare a b tolerance = .error (.malformedNumber e)) :
    ∃ e, compare b a tolerance = .error (.malformedNumber e) := by
  obtain hexchanged | ⟨-, hmalformed⟩ :=
    compare_exchanged_or_malformed tolerance ha hb
  · obtain ⟨e, he⟩ := h
    rw [hexchanged, he]
    exact ⟨e, rfl⟩
  · exact hmalformed

/-- A comparison does not depend on which outcome is the reference: both orders
find the two equivalent, or neither does, and for two successful outcomes they
report the same kind of fault, with the counts or the two values exchanged. -/
theorem compare_either_way (a b : Outcome) (tolerance : Double) :
    (compare a b tolerance = .ok () ↔ compare b a tolerance = .ok ()) ∧
      (a.success = true → b.success = true →
        ((∃ e, compare a b tolerance = .error (.malformedNumber e)) ↔
          ∃ e, compare b a tolerance = .error (.malformedNumber e)) ∧
        (∀ m n, compare a b tolerance = .error (.countMismatch m n) ↔
          compare b a tolerance = .error (.countMismatch n m)) ∧
        ∀ index v w, compare a b tolerance = .error (.valueMismatch index v w) ↔
          compare b a tolerance = .error (.valueMismatch index w v)) := by
  refine ⟨⟨compare_ok_of_exchanged, compare_ok_of_exchanged⟩, fun ha hb => ⟨?_, ?_, ?_⟩⟩
  · exact ⟨compare_malformed_of_exchanged ha hb, compare_malformed_of_exchanged hb ha⟩
  · intro m n
    exact ⟨compare_error_of_exchanged ha hb (by simp), compare_error_of_exchanged hb ha (by simp)⟩
  · intro index v w
    exact ⟨compare_error_of_exchanged ha hb (by simp), compare_error_of_exchanged hb ha (by simp)⟩

def Outcome.ofSlots (slots : List (Option Reported)) : Outcome :=
  { success := true, errorMessage := none, sources := [], expressions := [], canonical := [],
    parameters := [], results := slots }

theorem compare_either_way_two_slots :
    let a := Outcome.ofSlots [some (.complex "(1+2j)"), some (.real 1)]
    let b := Outcome.ofSlots [some (.complex "(1+2j)"), some (.real 2)]
    a.success = true ∧ b.success = true ∧
      compare a b 1e-6 = .error (.valueMismatch 1 (.real 1) (.real 2)) ∧
      compare b a 1e-6 = .error (.valueMismatch 1 (.real 2) (.real 1)) := by
  intro a b
  have ha : a.success = true := rfl
  have hb : b.success = true := rfl
  have hab : compare a b 1e-6 = .error (.valueMismatch 1 (.real 1) (.real 2)) := rfl
  have hvalues := ((compare_either_way a b 1e-6).2 ha hb).2.2 1 (.real 1) (.real 2)
  exact ⟨ha, hb, hab, hvalues.1 hab⟩

end Grading

end AnswerKey

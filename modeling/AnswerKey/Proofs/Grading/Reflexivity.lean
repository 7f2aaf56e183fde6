import AnswerKey.Grading.Session
import AnswerKey.Proofs.Answer.Intact
import AnswerKey.Proofs.Grading.Values

/-! When an answer that has its values is equivalent to itself as a response. -/
namespace AnswerKey.Grading

deriving instance DecidableEq for Binding

variable {binding : Binding} {options : Evaluation.Options} {latex : String}

theorem ofAnswer_isolate (h : Answer.Intact latex)
    (hsuccess : (Outcome.ofAnswer binding options latex).success = true) :
    Outcome.ofAnswer binding options (Answer.isolate latex) =
      Outcome.ofAnswer binding options latex := by
  obtain ⟨members, hread, hall⟩ := Outcome.ofAnswer_success.1 hsuccess
  have hexprs : Answer.AllExpressions members := by
    intro m hm
    obtain ⟨v, x, hx, -⟩ := hall m hm
    exact ⟨x, hx⟩
  rw [Outcome.ofAnswer, Outcome.ofAnswer, hread, Answer.read_isolate h hread hexprs]

theorem ofAnswer_isolate_ne (h : ¬Answer.Intact latex)
    (hsuccess : (Outcome.ofAnswer binding options latex).success = true)
    (hmodel : (Outcome.ofAnswer binding options (Answer.isolate latex)).success = true) :
    Outcome.ofAnswer binding options (Answer.isolate latex) ≠
      Outcome.ofAnswer binding options latex := by
  obtain ⟨members, hread, hall⟩ := Outcome.ofAnswer_success.1 hsuccess
  obtain ⟨members', hread', -⟩ := Outcome.ofAnswer_success.1 hmodel
  have hexprs : Answer.AllExpressions members := by
    intro m hm
    obtain ⟨v, x, hx, -⟩ := hall m hm
    exact ⟨x, hx⟩
  intro heq
  refine Answer.sources_ne_of_not_intact h hread hexprs hread' ?_
  rw [← Outcome.sources_ofAnswer hread', heq, Outcome.sources_ofAnswer hread]

theorem Verdict.isEquivalent_ofOutcomes {solution model : Outcome} {tolerance : Double} :
    (Verdict.ofOutcomes solution model tolerance).isEquivalent = true ↔
      compare solution model tolerance = .ok () := by
  rw [Verdict.ofOutcomes]
  cases hcompare : compare solution model tolerance with
  | ok u => simp
  | error m => simp

@[simp] theorem Verdict.model_ofOutcomes {solution model : Outcome} {tolerance : Double} :
    (Verdict.ofOutcomes solution model tolerance).model = model := by
  rw [Verdict.ofOutcomes]
  split <;> rfl

@[simp] theorem Verdict.solution_ofOutcomes {solution model : Outcome} {tolerance : Double} :
    (Verdict.ofOutcomes solution model tolerance).solution = solution := by
  rw [Verdict.ofOutcomes]
  split <;> rfl

theorem Session.compareAnswers_eq (s : Session) (reference response parameters : String) :
    (s.compareAnswers reference response parameters).1 =
      match (s.bind parameters).1 with
      | .ok binding =>
        Verdict.ofOutcomes (Outcome.ofAnswer binding s.settings.options reference)
          (Outcome.ofAnswer binding s.settings.options (Answer.isolate response))
          s.settings.tolerance
      | .error e => Verdict.failure (invalidParameters e) := by
  rw [compareAnswers]
  obtain ⟨bound, next⟩ := s.bind parameters
  cases bound with
  | ok binding => rfl
  | error e => rfl

theorem Session.compareAnswers_of_bind {s : Session} {parameters : String}
    (h : (s.bind parameters).1 = .ok binding) (reference response : String) :
    (s.compareAnswers reference response parameters).1 =
      Verdict.ofOutcomes (Outcome.ofAnswer binding s.settings.options reference)
        (Outcome.ofAnswer binding s.settings.options (Answer.isolate response))
        s.settings.tolerance := by
  rw [compareAnswers_eq, h]

/-- An answer whose members all have values is found equivalent to itself, with
the same outcome on both sides, if and only if it is intact. -/
theorem Session.compareAnswers_self (s : Session) (answer parameters : String) {binding : Binding}
    (hbind : (s.bind parameters).1 = .ok binding)
    (hfinite : s.settings.tolerance.isFinite = true) (hpos : 0 < s.settings.tolerance)
    (hsuccess : (Outcome.ofAnswer binding s.settings.options answer).success = true)
    (htexts : ∀ v ∈ valuesOf binding s.settings.options answer, v.ReadsBack) :
    let verdict := (s.compareAnswers answer answer parameters).1
    (verdict.success = true ∧ verdict.isEquivalent = true ∧ verdict.model = verdict.solution) ↔
      Answer.Intact answer := by
  rw [Session.compareAnswers_of_bind hbind]
  constructor
  · rintro ⟨-, hequivalent, hsame⟩
    refine Classical.byContradiction fun hintact => ?_
    rw [Verdict.isEquivalent_ofOutcomes] at hequivalent
    rw [Verdict.model_ofOutcomes, Verdict.solution_ofOutcomes] at hsame
    exact ofAnswer_isolate_ne hintact hsuccess (success_of_compare hequivalent).2 hsame
  · intro hintact
    rw [ofAnswer_isolate hintact hsuccess]
    obtain ⟨vs, hvs, hvalues⟩ := exists_slotValues hsuccess htexts
    have hcompare := compare_self hfinite hpos hsuccess hvs hvalues
    simp [Verdict.ofOutcomes, hcompare]

theorem Session.compareAnswers_boxed_sum :
    let verdict := ((Session.start (fun _ => 0) {}).compareAnswers
      "\\boxed\x7bx+i\x7d" "\\boxed\x7bx+i\x7d" "x").1
    verdict.success = true ∧ verdict.isEquivalent = true ∧ verdict.model = verdict.solution := by
  have hbind : ((Session.start (fun _ => 0) {}).bind "x").1 = .ok ⟨[("x", 2)]⟩ :=
    toOption_eq_some.1 (by decide +kernel)
  refine (Session.compareAnswers_self _ _ _ hbind ?_ ?_ ?_ ?_).2 ?_
  · decide +kernel
  · decide +kernel
  · decide +kernel
  · decide +kernel
  · decide +kernel

/-- The space of a control space at the end is trimmed, and what is left is not
read. -/
theorem Session.compareAnswers_control_space :
    (Settings.tolerance {}).isFinite = true ∧ 0 < Settings.tolerance {} ∧
      ((Session.start (fun _ => 0) {}).bind "").1 = .ok ⟨[]⟩ ∧
      (Outcome.ofAnswer ⟨[]⟩ {} "1\\ ").success = true ∧
      (∀ v ∈ valuesOf ⟨[]⟩ {} "1\\ ", v.ReadsBack) ∧
      ((Session.start (fun _ => 0) {}).compareAnswers "1\\ " "1\\ " "").1.isEquivalent =
        false := by
  refine ⟨?_, ?_, rfl, ?_, ?_, ?_⟩
  · decide +kernel
  · decide +kernel
  · decide +kernel
  · decide +kernel
  · decide +kernel

end AnswerKey.Grading

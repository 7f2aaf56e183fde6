import AnswerKey.Proofs.Grading.Reflexivity

/-! Verdicts: what a comparison finds out from the values of both answers, and
which mismatch it reports where they are not equivalent. -/
namespace AnswerKey.Grading

def Agree (tolerance : Double) (as bs : List Value) : Prop :=
  ∀ (i : Nat) (a b : Value), as[i]? = some a → bs[i]? = some b → a.approxEq tolerance b = true

structure FirstDiffers (tolerance : Double) (as bs : List Value) (i : Nat) (a b : Value) :
    Prop where
  left : as[i]? = some a
  right : bs[i]? = some b
  differ : a.approxEq tolerance b = false
  least : ∀ j < i, ∀ c d, as[j]? = some c → bs[j]? = some d → c.approxEq tolerance d = true

/-- What a comparison of two answers reports: their first mismatch in this
order. -/
inductive Reason (binding : Binding) (options : Evaluation.Options) (tolerance : Double)
    (reference candidate : String) : Mismatch → Prop
  | solutionFailed (failed : ¬∃ as, HasValues binding options reference as) :
      Reason binding options tolerance reference candidate
        (.solutionFailed (Outcome.ofAnswer binding options reference).failureMessage)
  | modelFailed {as : List Value} (solution : HasValues binding options reference as)
      (failed : ¬∃ bs, HasValues binding options candidate bs) :
      Reason binding options tolerance reference candidate
        (.modelFailed (Outcome.ofAnswer binding options candidate).failureMessage)
  | countMismatch {as bs : List Value} (solution : HasValues binding options reference as)
      (model : HasValues binding options candidate bs) (count : as.length ≠ bs.length) :
      Reason binding options tolerance reference candidate
        (.countMismatch as.length bs.length)
  | valueMismatch {as bs : List Value} {i : Nat} {a b : Value}
      (solution : HasValues binding options reference as)
      (model : HasValues binding options candidate bs) (count : as.length = bs.length)
      (first : FirstDiffers tolerance as bs i a b) :
      Reason binding options tolerance reference candidate (.valueMismatch i a b)

variable {binding : Binding} {options : Evaluation.Options} {tolerance : Double}
  {reference candidate : String} {as bs : List Value}

theorem agree_cons {a b : Value} :
    Agree tolerance (a :: as) (b :: bs) ↔
      a.approxEq tolerance b = true ∧ Agree tolerance as bs := by
  constructor
  · intro h
    exact ⟨h 0 a b rfl rfl, fun i c d hc hd => h (i + 1) c d hc hd⟩
  · rintro ⟨first, rest⟩ i c d hc hd
    cases i with
    | zero =>
      obtain rfl : a = c := by simpa using hc
      obtain rfl : b = d := by simpa using hd
      exact first
    | succ i => exact rest i c d hc hd

theorem firstDifference_eq_none {index : Nat} :
    firstDifference tolerance index as bs = none ↔ Agree tolerance as bs := by
  induction as generalizing bs index with
  | nil => simp [firstDifference, Agree]
  | cons a as ih =>
    cases bs with
    | nil => simp [firstDifference, Agree]
    | cons b bs =>
      rw [agree_cons]
      cases hab : a.approxEq tolerance b with
      | false => simp [firstDifference, hab]
      | true => simp [firstDifference, hab, ih]

theorem firstDiffers_cons {a b c d : Value} {i : Nat} :
    FirstDiffers tolerance (a :: as) (b :: bs) i c d ↔
      (i = 0 ∧ a = c ∧ b = d ∧ a.approxEq tolerance b = false) ∨
        ∃ j, i = j + 1 ∧ a.approxEq tolerance b = true ∧ FirstDiffers tolerance as bs j c d := by
  constructor
  · rintro ⟨left, right, differ, least⟩
    cases i with
    | zero =>
      obtain rfl : a = c := by simpa using left
      obtain rfl : b = d := by simpa using right
      exact .inl ⟨rfl, rfl, rfl, differ⟩
    | succ j =>
      refine .inr ⟨j, rfl, least 0 (by omega) a b rfl rfl, left, right, differ, ?_⟩
      intro k hk x y hx hy
      exact least (k + 1) (by omega) x y hx hy
  · rintro (⟨rfl, rfl, rfl, differ⟩ | ⟨j, rfl, same, left, right, differ, least⟩)
    · exact ⟨rfl, rfl, differ, by simp⟩
    · refine ⟨left, right, differ, fun k hk x y hx hy => ?_⟩
      cases k with
      | zero =>
        obtain rfl : a = x := by simpa using hx
        obtain rfl : b = y := by simpa using hy
        exact same
      | succ k => exact least k (by omega) x y hx hy

theorem firstDifference_eq_some {index : Nat} {m : Mismatch} :
    firstDifference tolerance index as bs = some m ↔
      ∃ i a b, FirstDiffers tolerance as bs i a b ∧ m = .valueMismatch (index + i) a b := by
  induction as generalizing bs index with
  | nil =>
    simp only [firstDifference, reduceCtorEq, false_iff]
    rintro ⟨i, a, b, ⟨left, -⟩, -⟩
    simp at left
  | cons a as ih =>
    cases bs with
    | nil =>
      simp only [firstDifference, reduceCtorEq, false_iff]
      rintro ⟨i, c, d, ⟨-, right, -⟩, -⟩
      simp at right
    | cons b bs =>
      simp only [firstDiffers_cons]
      cases hab : a.approxEq tolerance b with
      | false =>
        simp only [firstDifference, hab, Bool.false_eq_true, if_false, Option.some.injEq]
        constructor
        · rintro rfl
          exact ⟨0, a, b, .inl ⟨rfl, rfl, rfl, trivial⟩, rfl⟩
        · rintro ⟨i, c, d, ⟨rfl, rfl, rfl, -⟩ | ⟨j, -, h, -⟩, rfl⟩
          · rfl
          · cases h
      | true =>
        simp only [firstDifference, hab, if_true, ih]
        constructor
        · rintro ⟨j, c, d, hfirst, rfl⟩
          exact ⟨j + 1, c, d, .inr ⟨j, rfl, trivial, hfirst⟩,
            by rw [Nat.add_right_comm, Nat.add_assoc]⟩
        · rintro ⟨i, c, d, ⟨-, -, -, h⟩ | ⟨j, rfl, -, hfirst⟩, rfl⟩
          · cases h
          · exact ⟨j, c, d, hfirst, by rw [Nat.add_right_comm, Nat.add_assoc]⟩

theorem success_eq_false : (Outcome.ofAnswer binding options reference).success = false ↔
    ¬∃ as, HasValues binding options reference as := by
  rw [← success_iff_hasValues, Bool.not_eq_true]

theorem compare_of_slotValues {solution model : Outcome} (hs : solution.success = true)
    (hm : model.success = true) (has : slotValues solution.results = .ok as)
    (hbs : slotValues model.results = .ok bs) :
    compare solution model tolerance =
      if as.length ≠ bs.length then .error (.countMismatch as.length bs.length)
      else match firstDifference tolerance 0 as bs with
        | some m => .error m
        | none => .ok () := by
  simp only [compare, hs, hm, has, hbs, Bool.not_true, Bool.false_eq_true, if_false, bind,
    Except.bind]
  split
  · rfl
  · cases firstDifference tolerance 0 as bs with
    | none => rfl
    | some m => rfl

section

variable (hreference : ∀ v ∈ valuesOf binding options reference, v.ReadsBack)
  (hcandidate : ∀ v ∈ valuesOf binding options candidate, v.ReadsBack)
include hreference hcandidate

theorem compare_eq_ok :
    compare (Outcome.ofAnswer binding options reference)
        (Outcome.ofAnswer binding options candidate) tolerance = .ok () ↔
      ∃ as bs, HasValues binding options reference as ∧ HasValues binding options candidate bs ∧
        as.length = bs.length ∧ Agree tolerance as bs := by
  constructor
  · intro h
    obtain ⟨hs, hm⟩ := success_of_compare h
    obtain ⟨as, has⟩ := success_iff_hasValues.1 hs
    obtain ⟨bs, hbs⟩ := success_iff_hasValues.1 hm
    rw [compare_of_slotValues hs hm (has.slotValues hreference) (hbs.slotValues hcandidate)] at h
    split at h
    · cases h
    · next hcount =>
      have hcount : as.length = bs.length := by simpa using hcount
      split at h
      · cases h
      · next hnone =>
        exact ⟨as, bs, has, hbs, hcount, firstDifference_eq_none.1 hnone⟩
  · rintro ⟨as, bs, has, hbs, hcount, hagree⟩
    have hs := success_iff_hasValues.2 ⟨as, has⟩
    have hm := success_iff_hasValues.2 ⟨bs, hbs⟩
    have hnone : firstDifference tolerance 0 as bs = none := firstDifference_eq_none.2 hagree
    rw [compare_of_slotValues hs hm (has.slotValues hreference) (hbs.slotValues hcandidate),
      if_neg (by simpa using hcount), hnone]

theorem reason_of_compare {m : Mismatch}
    (h : compare (Outcome.ofAnswer binding options reference)
      (Outcome.ofAnswer binding options candidate) tolerance = .error m) :
    Reason binding options tolerance reference candidate m := by
  cases hs : (Outcome.ofAnswer binding options reference).success with
  | false =>
    simp only [compare, hs, Bool.not_false, if_true, Except.error.injEq] at h
    exact h ▸ .solutionFailed (success_eq_false.1 hs)
  | true =>
    obtain ⟨as, has⟩ := success_iff_hasValues.1 hs
    cases hm : (Outcome.ofAnswer binding options candidate).success with
    | false =>
      simp only [compare, hs, hm, Bool.not_true, Bool.not_false, Bool.false_eq_true, if_false,
        if_true, Except.error.injEq] at h
      exact h ▸ .modelFailed has (success_eq_false.1 hm)
    | true =>
      obtain ⟨bs, hbs⟩ := success_iff_hasValues.1 hm
      rw [compare_of_slotValues hs hm (has.slotValues hreference)
        (hbs.slotValues hcandidate)] at h
      split at h
      · next hcount =>
        cases h
        exact .countMismatch has hbs hcount
      · next hcount =>
        split at h
        · next hfirst =>
          cases h
          obtain ⟨i, a, b, hdiffers, rfl⟩ := firstDifference_eq_some.1 hfirst
          rw [Nat.zero_add]
          exact .valueMismatch has hbs (by simpa using hcount) hdiffers
        · cases h

theorem compare_of_reason {m : Mismatch}
    (h : Reason binding options tolerance reference candidate m) :
    compare (Outcome.ofAnswer binding options reference)
      (Outcome.ofAnswer binding options candidate) tolerance = .error m := by
  cases h with
  | solutionFailed failed => simp [compare, success_eq_false.2 failed]
  | modelFailed solution failed =>
    simp [compare, success_iff_hasValues.2 ⟨_, solution⟩, success_eq_false.2 failed]
  | countMismatch solution model count =>
    rw [compare_of_slotValues (success_iff_hasValues.2 ⟨_, solution⟩)
      (success_iff_hasValues.2 ⟨_, model⟩) (solution.slotValues hreference)
      (model.slotValues hcandidate), if_pos count]
  | valueMismatch solution model count first =>
    have hfirst : firstDifference tolerance 0 _ _ = some _ :=
      firstDifference_eq_some.2 ⟨_, _, _, first, rfl⟩
    rw [compare_of_slotValues (success_iff_hasValues.2 ⟨_, solution⟩)
      (success_iff_hasValues.2 ⟨_, model⟩) (solution.slotValues hreference)
      (model.slotValues hcandidate), if_neg (by simpa using count), hfirst, Nat.zero_add]

end

/-- What a verdict under a binding says of the two answers. -/
structure Verdict.Correct (binding : Binding) (options : Evaluation.Options) (tolerance : Double)
    (reference candidate : String) (v : Verdict) : Prop where
  solution : v.solution = Outcome.ofAnswer binding options reference
  model : v.model = Outcome.ofAnswer binding options candidate
  parameters : v.solution.parameters = v.model.parameters
  success_iff : v.success = true ↔ v.solution.success = true ∧ v.model.success = true
  isEquivalent_iff : v.isEquivalent = true ↔
    v.solution.success = true ∧ v.model.success = true ∧
      ∃ as bs, HasValues binding options reference as ∧ HasValues binding options candidate bs ∧
        as.length = bs.length ∧ Agree tolerance as bs
  message_eq_none : v.errorMessage = none ↔ v.isEquivalent = true
  message_eq_some : ∀ text, v.errorMessage = some text ↔
    ∃ m, Reason binding options tolerance reference candidate m ∧ m.message = text
  mismatch : ∀ m, compare v.solution v.model tolerance = .error m ↔
    Reason binding options tolerance reference candidate m
  wellFormed : ∀ e, compare v.solution v.model tolerance ≠ .error (.malformedNumber e)

theorem Outcome.parameters_ofAnswer (latex : String) :
    (ofAnswer binding options latex).parameters = binding.entries := by
  cases hread : Answer.read binding.names latex with
  | error e => simp [ofAnswer, hread, failure]
  | ok members => simp [ofAnswer, hread, ofMembers]

theorem Reason.compared_iff {m : Mismatch}
    (h : Reason binding options tolerance reference candidate m) :
    m.compared = true ↔ (Outcome.ofAnswer binding options reference).success = true ∧
      (Outcome.ofAnswer binding options candidate).success = true := by
  cases h with
  | solutionFailed failed => simp [Mismatch.compared, success_eq_false.2 failed]
  | modelFailed solution failed => simp [Mismatch.compared, success_eq_false.2 failed]
  | countMismatch solution model count =>
    simp [Mismatch.compared, success_iff_hasValues.2 ⟨_, solution⟩,
      success_iff_hasValues.2 ⟨_, model⟩]
  | valueMismatch solution model count first =>
    simp [Mismatch.compared, success_iff_hasValues.2 ⟨_, solution⟩,
      success_iff_hasValues.2 ⟨_, model⟩]

theorem Verdict.success_ofOutcomes
    (hreference : ∀ v ∈ valuesOf binding options reference, v.ReadsBack)
    (hcandidate : ∀ v ∈ valuesOf binding options candidate, v.ReadsBack) :
    (Verdict.ofOutcomes (Outcome.ofAnswer binding options reference)
        (Outcome.ofAnswer binding options candidate) tolerance).success = true ↔
      (Outcome.ofAnswer binding options reference).success = true ∧
        (Outcome.ofAnswer binding options candidate).success = true := by
  rw [Verdict.ofOutcomes]
  cases hcompare : compare (Outcome.ofAnswer binding options reference)
      (Outcome.ofAnswer binding options candidate) tolerance with
  | ok u => simp [success_of_compare hcompare]
  | error m => exact (reason_of_compare hreference hcandidate hcompare).compared_iff

theorem Verdict.message_ofOutcomes {solution model : Outcome} (text : String) :
    (Verdict.ofOutcomes solution model tolerance).errorMessage = some text ↔
      ∃ m, compare solution model tolerance = .error m ∧ m.message = text := by
  rw [Verdict.ofOutcomes]
  cases compare solution model tolerance with
  | ok u => simp
  | error m => simp

theorem Verdict.message_eq_none_ofOutcomes {solution model : Outcome} :
    (Verdict.ofOutcomes solution model tolerance).errorMessage = none ↔
      (Verdict.ofOutcomes solution model tolerance).isEquivalent = true := by
  rw [Verdict.ofOutcomes]
  cases compare solution model tolerance with
  | ok u => simp
  | error m => simp

theorem Verdict.correct_ofOutcomes
    (hreference : ∀ v ∈ valuesOf binding options reference, v.ReadsBack)
    (hcandidate : ∀ v ∈ valuesOf binding options candidate, v.ReadsBack) :
    Verdict.Correct binding options tolerance reference candidate
      (Verdict.ofOutcomes (Outcome.ofAnswer binding options reference)
        (Outcome.ofAnswer binding options candidate) tolerance) := by
  have hreason (m : Mismatch) : compare (Outcome.ofAnswer binding options reference)
      (Outcome.ofAnswer binding options candidate) tolerance = .error m ↔
        Reason binding options tolerance reference candidate m :=
    ⟨reason_of_compare hreference hcandidate, compare_of_reason hreference hcandidate⟩
  constructor
  case solution => exact Verdict.solution_ofOutcomes
  case model => exact Verdict.model_ofOutcomes
  case parameters =>
    rw [Verdict.solution_ofOutcomes, Verdict.model_ofOutcomes, Outcome.parameters_ofAnswer,
      Outcome.parameters_ofAnswer]
  case success_iff =>
    rw [Verdict.solution_ofOutcomes, Verdict.model_ofOutcomes]
    exact Verdict.success_ofOutcomes hreference hcandidate
  case isEquivalent_iff =>
    rw [Verdict.isEquivalent_ofOutcomes, Verdict.solution_ofOutcomes, Verdict.model_ofOutcomes,
      compare_eq_ok hreference hcandidate]
    constructor
    · rintro ⟨as, bs, has, hbs, hagree⟩
      exact ⟨success_iff_hasValues.2 ⟨as, has⟩, success_iff_hasValues.2 ⟨bs, hbs⟩, as, bs, has, hbs,
        hagree⟩
    · exact fun h => h.2.2
  case message_eq_none => exact Verdict.message_eq_none_ofOutcomes
  case message_eq_some =>
    intro text
    simp only [Verdict.message_ofOutcomes, hreason]
  case mismatch =>
    rw [Verdict.solution_ofOutcomes, Verdict.model_ofOutcomes]
    exact hreason
  case wellFormed =>
    intro e he
    rw [Verdict.solution_ofOutcomes, Verdict.model_ofOutcomes, hreason] at he
    cases he

/-- Of answers under parameters that are understood the verdict is correct; others
fail on both sides. -/
theorem Session.compareAnswers_correct (s : Session) (reference response parameters : String)
    (htexts : ∀ binding, (s.bind parameters).1 = .ok binding →
      (∀ v ∈ valuesOf binding s.settings.options reference, v.ReadsBack) ∧
        ∀ v ∈ valuesOf binding s.settings.options (Answer.isolate response), v.ReadsBack) :
    let verdict := (s.compareAnswers reference response parameters).1
    (∀ binding, (s.bind parameters).1 = .ok binding →
      Verdict.Correct binding s.settings.options s.settings.tolerance reference
        (Answer.isolate response) verdict) ∧
    ∀ e, (s.bind parameters).1 = .error e →
      verdict.success = false ∧ verdict.isEquivalent = false ∧
        verdict.errorMessage = some (invalidParameters e) ∧
        verdict.solution = Outcome.failure (invalidParameters e) [] ∧
        verdict.model = Outcome.failure (invalidParameters e) [] := by
  constructor
  · intro binding hbind
    rw [Session.compareAnswers_of_bind hbind]
    obtain ⟨hreference, hcandidate⟩ := htexts binding hbind
    exact Verdict.correct_ofOutcomes hreference hcandidate
  · intro e hbind
    rw [Session.compareAnswers_eq, hbind]
    exact ⟨rfl, rfl, rfl, rfl, rfl⟩

theorem Session.compareAnswers_conjugate :
    let verdict := ((Session.start (fun _ => 0) {}).compareAnswers
      "1; x+i" "\\boxed\x7b1; x-i\x7d" "x").1
    Verdict.Correct ⟨[("x", 2)]⟩ {} (Settings.tolerance {}) "1; x+i"
        (Answer.isolate "\\boxed\x7b1; x-i\x7d") verdict ∧
      verdict.success = true ∧ verdict.isEquivalent = false := by
  have hbind : ((Session.start (fun _ => 0) {}).bind "x").1 = .ok ⟨[("x", 2)]⟩ :=
    toOption_eq_some.1 (by decide +kernel)
  have hcorrect := (Session.compareAnswers_correct (Session.start (fun _ => 0) {}) "1; x+i"
    "\\boxed\x7b1; x-i\x7d" "x" ?_).1 _ hbind
  · exact ⟨hcorrect, by decide +kernel, by decide +kernel⟩
  · intro binding h
    obtain rfl : (⟨[("x", 2)]⟩ : Binding) = binding := Except.ok.inj (hbind.symm.trans h)
    exact ⟨by decide +kernel, by decide +kernel⟩

end AnswerKey.Grading

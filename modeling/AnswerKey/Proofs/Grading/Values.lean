import AnswerKey.Grading.Comparison
import AnswerKey.Proofs.Answer.Contents
import AnswerKey.Proofs.Double.Nonnegative
import AnswerKey.Proofs.Success
import AnswerKey.Proofs.Value.RoundTrip

/-! Successful outcomes, and the values that are read off them again. -/
namespace AnswerKey.Grading

def HasValue (binding : Binding) (options : Evaluation.Options) (m : Member) (v : Value) : Prop :=
  ∃ x, m.expr = .ok x ∧ x.evaluate binding options = .ok v ∧ v.isFinite = true

def valuesOf (binding : Binding) (options : Evaluation.Options) (latex : String) : List Value :=
  match Answer.read binding.names latex with
  | .error _ => []
  | .ok members =>
    members.filterMap fun m => (MemberOutcome.ofMember binding options m).result.toOption

variable {binding : Binding} {options : Evaluation.Options} {latex : String}

theorem finiteValue_eq_ok {e : Evaluated Value} {v : Value} :
    finiteValue e = .ok v ↔ e = .ok v ∧ v.isFinite = true := by
  cases e with
  | error e => simp [finiteValue]
  | ok w =>
    simp only [finiteValue]
    split
    · next hfinite =>
      simp only [Except.ok.injEq]
      exact ⟨fun h => ⟨h, h ▸ hfinite⟩, And.left⟩
    · next hfinite =>
      simp only [reduceCtorEq, Except.ok.injEq, false_iff, not_and]
      rintro rfl
      exact hfinite

theorem MemberOutcome.result_eq_ok {m : Member} {v : Value} :
    (MemberOutcome.ofMember binding options m).result = .ok v ↔ HasValue binding options m v := by
  cases hm : m.expr with
  | error e => simp [MemberOutcome.ofMember, HasValue, hm]
  | ok x => simp [MemberOutcome.ofMember, HasValue, hm, finiteValue_eq_ok]

@[simp] theorem MemberOutcome.source_ofMember (m : Member) :
    (MemberOutcome.ofMember binding options m).source = m.source := by
  simp only [MemberOutcome.ofMember]
  split <;> rfl

theorem mem_valuesOf {members : List Member} {m : Member} {v : Value}
    (hread : Answer.read binding.names latex = .ok members) (hm : m ∈ members)
    (hv : HasValue binding options m v) : v ∈ valuesOf binding options latex := by
  simp only [valuesOf, hread, List.mem_filterMap]
  exact ⟨m, hm, toOption_eq_some.2 (MemberOutcome.result_eq_ok.2 hv)⟩

namespace Outcome

theorem messages_eq_nil {single : Bool} {index : Nat} {members : List MemberOutcome} :
    messages single index members = [] ↔ ∀ m ∈ members, ∃ v, m.result = .ok v := by
  induction members generalizing index with
  | nil => simp [messages]
  | cons m members ih =>
    cases hm : m.result with
    | ok v => simp [messages, hm, ih]
    | error e => simp [messages, hm]

theorem ofAnswer_success : (ofAnswer binding options latex).success = true ↔
    ∃ members, Answer.read binding.names latex = .ok members ∧
      ∀ m ∈ members, ∃ v, HasValue binding options m v := by
  cases hread : Answer.read binding.names latex with
  | error e => simp [ofAnswer, hread, failure]
  | ok members =>
    simp only [ofAnswer, hread, ofMembers, List.isEmpty_iff, messages_eq_nil, List.forall_mem_map,
      MemberOutcome.result_eq_ok, Except.ok.injEq, exists_eq_left']

theorem sources_ofAnswer {members : List Member}
    (h : Answer.read binding.names latex = .ok members) :
    (ofAnswer binding options latex).sources = members.map (·.source) := by
  simp [ofAnswer, h, ofMembers, Function.comp_def]

end Outcome

theorem Reported.toValue_ofValue {v : Value} (h : v.isFinite = true) (hback : v.ReadsBack) :
    (Reported.ofValue v).toValue = .ok v := by
  cases v with
  | real x => rfl
  | complex z =>
    obtain ⟨hre, him⟩ := hback
    have hfinite : z.re.isFinite = true ∧ z.im.isFinite = true := by
      simpa [Value.isFinite, Complex.isFinite] using h
    exact Value.ofText_complex (Double.isNaN_of_isFinite hfinite.2) hre him

/-- Any two numbers in a row, the second one with its sign, are read as the complex
number of the two, and every value of numbers is read back from its text and from
its report when those of its numbers that are finite are. -/
theorem Reported.text_codec :
    (∀ {a b : String} {x y : Double},
      b.toList.head? = some '+' ∨ b.toList.head? = some '-' →
      Decimal.read? a.toList = some x → Decimal.read? b.toList = some y →
      Value.ofText (a ++ b ++ "j") = .ok (.complex ⟨x, y⟩) ∧
        Value.ofText ("(" ++ a ++ b ++ "j)") = .ok (.complex ⟨x, y⟩)) ∧
    ∀ {v : Value}, (∀ x ∈ v.parts, x.isNaN = false) →
      (∀ x ∈ v.parts, x.isFinite = true → Decimal.ReadsBack x) →
      Value.ofText v.text = .ok v ∧ (ofValue v).toValue = .ok v := by
  constructor
  · intro a b x y hsign hx hy
    obtain ⟨s, hs, hhead⟩ : ∃ s, Value.isSign s = true ∧ b.toList.head? = some s := by
      obtain hhead | hhead := hsign
      · exact ⟨'+', by decide, hhead⟩
      · exact ⟨'-', by decide, hhead⟩
    obtain ⟨rest, hb⟩ := List.head?_eq_some_iff.1 hhead
    exact Value.ofText_append hs hb hx hy
  · intro v hnumber hback
    refine ⟨Value.ofText_text hnumber hback, ?_⟩
    cases v with
    | real x => rfl
    | complex z => exact Value.ofText_text hnumber hback

/-- An exponent with a sign of its own before an infinity, and a zero with a minus. -/
theorem Reported.text_codec_infinities :
    Value.ofText ("-1.5e+5" ++ "-Infinity" ++ "j") =
        .ok (.complex ⟨-150000, Double.infinity true⟩) ∧
      Value.ofText (Value.complex ⟨-0, Double.infinity true⟩).text =
          .ok (.complex ⟨-0, Double.infinity true⟩) ∧
        (ofValue (.complex ⟨-0, Double.infinity true⟩)).toValue =
          .ok (.complex ⟨-0, Double.infinity true⟩) :=
  ⟨(Reported.text_codec.1 (by decide) (by decide +kernel) (by decide +kernel)).1,
    Reported.text_codec.2 (by decide +kernel) (by decide +kernel)⟩

theorem HasValue.isFinite {m : Member} {v : Value} (h : HasValue binding options m v) :
    v.isFinite = true := by
  obtain ⟨x, -, -, hfinite⟩ := h
  exact hfinite

inductive MembersHave (binding : Binding) (options : Evaluation.Options) :
    List Member → List Value → Prop
  | nil : MembersHave binding options [] []
  | cons {m : Member} {v : Value} {members : List Member} {vs : List Value}
      (first : HasValue binding options m v) (rest : MembersHave binding options members vs) :
      MembersHave binding options (m :: members) (v :: vs)

namespace MembersHave

variable {members : List Member} {vs : List Value}

theorem exists_of_mem (h : MembersHave binding options members vs) {m : Member}
    (hm : m ∈ members) : ∃ v, HasValue binding options m v := by
  induction h with
  | nil => cases hm
  | cons first _ ih =>
    rcases List.mem_cons.1 hm with rfl | hm
    · exact ⟨_, first⟩
    · exact ih hm

theorem mem_of_mem (h : MembersHave binding options members vs) {v : Value} (hv : v ∈ vs) :
    ∃ m ∈ members, HasValue binding options m v := by
  induction h with
  | nil => cases hv
  | cons first _ ih =>
    rcases List.mem_cons.1 hv with rfl | hv
    · exact ⟨_, List.mem_cons_self, first⟩
    · obtain ⟨m, hm, hmv⟩ := ih hv
      exact ⟨m, List.mem_cons_of_mem _ hm, hmv⟩

end MembersHave

theorem exists_membersHave {members : List Member}
    (h : ∀ m ∈ members, ∃ v, HasValue binding options m v) :
    ∃ vs, MembersHave binding options members vs := by
  induction members with
  | nil => exact ⟨[], .nil⟩
  | cons m members ih =>
    obtain ⟨v, hv⟩ := h m (by simp)
    obtain ⟨vs, hvs⟩ := ih fun n hn => h n (List.mem_cons_of_mem _ hn)
    exact ⟨v :: vs, .cons hv hvs⟩

def HasValues (binding : Binding) (options : Evaluation.Options) (latex : String)
    (vs : List Value) : Prop :=
  ∃ members, Answer.read binding.names latex = .ok members ∧ MembersHave binding options members vs

theorem success_iff_hasValues : (Outcome.ofAnswer binding options latex).success = true ↔
    ∃ vs, HasValues binding options latex vs := by
  rw [Outcome.ofAnswer_success]
  constructor
  · rintro ⟨members, hread, hall⟩
    obtain ⟨vs, hvs⟩ := exists_membersHave hall
    exact ⟨vs, members, hread, hvs⟩
  · rintro ⟨vs, members, hread, hvs⟩
    exact ⟨members, hread, fun _ => hvs.exists_of_mem⟩

theorem HasValues.mem_valuesOf {vs : List Value} (h : HasValues binding options latex vs)
    {v : Value} (hv : v ∈ vs) : v ∈ valuesOf binding options latex ∧ v.isFinite = true := by
  obtain ⟨members, hread, hvs⟩ := h
  obtain ⟨m, hm, hmv⟩ := hvs.mem_of_mem hv
  exact ⟨Grading.mem_valuesOf hread hm hmv, hmv.isFinite⟩

theorem slotValues_reported {members : List Member} {vs : List Value}
    (h : MembersHave binding options members vs) (hback : ∀ v ∈ vs, v.ReadsBack) :
    slotValues ((members.map (MemberOutcome.ofMember binding options)).map Outcome.reported) =
      .ok vs := by
  induction h with
  | nil => rfl
  | @cons m v members vs hv _ ih =>
    have hslot : Outcome.reported (MemberOutcome.ofMember binding options m) =
        some (Reported.ofValue v) := by
      rw [Outcome.reported, MemberOutcome.result_eq_ok.2 hv]
    have hvalue : (Reported.ofValue v).toValue = .ok v :=
      Reported.toValue_ofValue hv.isFinite (hback v (by simp))
    rw [List.map_cons, List.map_cons, hslot]
    simp only [slotValues, bind_eq_ok, pure_eq_ok]
    exact ⟨v, by simp [slotValue, hvalue], vs, ih fun w hw => hback w (List.mem_cons_of_mem _ hw),
      rfl⟩

theorem HasValues.slotValues {vs : List Value} (h : HasValues binding options latex vs)
    (hback : ∀ v ∈ valuesOf binding options latex, v.ReadsBack) :
    slotValues (Outcome.ofAnswer binding options latex).results = .ok vs := by
  have hvsback : ∀ v ∈ vs, v.ReadsBack := fun v hv => hback v (h.mem_valuesOf hv).1
  obtain ⟨members, hread, hvs⟩ := h
  simp only [Outcome.ofAnswer, hread, Outcome.ofMembers]
  split
  · next hnone =>
    cases hvs with
    | nil => rfl
    | cons hv _ =>
      simp [Outcome.reported, MemberOutcome.result_eq_ok.2 hv] at hnone
  · exact slotValues_reported hvs hvsback

theorem exists_slotValues (h : (Outcome.ofAnswer binding options latex).success = true)
    (hback : ∀ v ∈ valuesOf binding options latex, v.ReadsBack) :
    ∃ vs, slotValues (Outcome.ofAnswer binding options latex).results = .ok vs ∧
      ∀ v ∈ vs, v.isFinite = true := by
  obtain ⟨vs, hvs⟩ := success_iff_hasValues.1 h
  exact ⟨vs, hvs.slotValues hback, fun v hv => (hvs.mem_valuesOf hv).2⟩

theorem firstDifference_self {tolerance : Double} (h : tolerance.isFinite = true)
    (hpos : 0 < tolerance) {vs : List Value} (hvs : ∀ v ∈ vs, v.isFinite = true) (index : Nat) :
    firstDifference tolerance index vs vs = none := by
  induction vs generalizing index with
  | nil => rfl
  | cons v vs ih =>
    have hv : v.approxEq tolerance v = true := Value.approxEq_self h hpos (hvs v (by simp))
    rw [firstDifference, if_pos hv]
    exact ih (fun w hw => hvs w (List.mem_cons_of_mem _ hw)) (index + 1)

theorem compare_self {tolerance : Double} (h : tolerance.isFinite = true) (hpos : 0 < tolerance)
    {o : Outcome} (hsuccess : o.success = true) {vs : List Value}
    (hvs : slotValues o.results = .ok vs) (hfinite : ∀ v ∈ vs, v.isFinite = true) :
    compare o o tolerance = .ok () := by
  simp [compare, hsuccess, hvs, firstDifference_self h hpos hfinite, bind, Except.bind, pure,
    Except.pure]

theorem success_of_compare {tolerance : Double} {solution model : Outcome}
    (h : compare solution model tolerance = .ok ()) :
    solution.success = true ∧ model.success = true := by
  cases hs : solution.success with
  | false => simp [compare, hs] at h
  | true =>
    cases hm : model.success with
    | false => simp [compare, hs, hm] at h
    | true => exact ⟨rfl, rfl⟩

end AnswerKey.Grading

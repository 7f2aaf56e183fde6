import AnswerKey.Proofs.Grading.Values

/-! The shape of every outcome: its lists have one slot for each member, and its
message has one entry for each member without a value. -/
namespace AnswerKey.Grading

variable {binding : Binding} {options : Evaluation.Options}

inductive Fault (binding : Binding) (options : Evaluation.Options) (m : Member) : String → Prop
  | unread {e : ReadingError} (expr : m.expr = .error e) : Fault binding options m e.message
  | failed {x : Expr} {e : EvaluationError} (expr : m.expr = .ok x)
      (value : x.evaluate binding options = .error e) : Fault binding options m e.message
  | infinite {x : Expr} {v : Value} (expr : m.expr = .ok x)
      (value : x.evaluate binding options = .ok v) (infinite : v.isFinite = false) :
      Fault binding options m ("result " ++ v.text ++ " is not finite")

theorem MemberOutcome.result_eq_error {m : Member} {text : String} :
    (MemberOutcome.ofMember binding options m).result = .error text ↔
      Fault binding options m text := by
  constructor
  · intro h
    cases hm : m.expr with
    | error e =>
      simp only [MemberOutcome.ofMember, hm, Except.error.injEq] at h
      exact h ▸ .unread hm
    | ok x =>
      simp only [MemberOutcome.ofMember, hm] at h
      cases hv : x.evaluate binding options with
      | error e =>
        simp only [hv, finiteValue, Except.error.injEq] at h
        exact h ▸ .failed hm hv
      | ok v =>
        simp only [hv, finiteValue] at h
        split at h
        · cases h
        · next hinfinite =>
          cases h
          exact .infinite hm hv (by simpa using hinfinite)
  · intro h
    cases h with
    | unread expr => simp [MemberOutcome.ofMember, expr]
    | failed expr value => simp [MemberOutcome.ofMember, expr, value, finiteValue]
    | infinite expr value infinite =>
      simp [MemberOutcome.ofMember, expr, value, finiteValue, infinite]

theorem exists_fault {m : Member} :
    (∃ text, Fault binding options m text) ↔ ¬∃ v, HasValue binding options m v := by
  simp only [← MemberOutcome.result_eq_error, ← MemberOutcome.result_eq_ok]
  cases (MemberOutcome.ofMember binding options m).result with
  | error text => simp
  | ok v => simp

/-- One entry for each member without a finite value, in the order of the
members. An entry has the place of its member. -/
structure Entries (binding : Binding) (options : Evaluation.Options) (members : List Member)
    (entries : List (Nat × String)) : Prop where
  ordered : entries.Pairwise fun a b => a.1 < b.1
  fault_of_mem : ∀ i text, (i, text) ∈ entries →
    ∃ m, members[i]? = some m ∧ Fault binding options m text
  mem_iff : ∀ i m, members[i]? = some m →
    ((∃ text, (i, text) ∈ entries) ↔ ¬∃ v, HasValue binding options m v)

def labelled (count : Nat) (entry : Nat × String) : String :=
  if 2 ≤ count then "member " ++ toString (entry.1 + 1) ++ ": " ++ entry.2 else entry.2

/-- The shape that the outcome of an answer has, by what the answer is read as. -/
structure Outcome.Shape (binding : Binding) (options : Evaluation.Options)
    (read : Except ReadingError (List Member)) (o : Outcome) : Prop where
  success_iff : o.success = true ↔ o.errorMessage = none
  expressions_length : o.expressions.length = o.sources.length
  canonical_length : o.canonical.length = o.sources.length
  sources_eq_nil : o.sources = [] ↔ ∃ e, read = .error e
  sources_of_read : ∀ members, read = .ok members → o.sources = members.map (·.source)
  rendered_together : ∀ i : Nat,
    (∃ x, o.expressions[i]? = some (some x)) ↔ ∃ x, o.canonical[i]? = some (some x)
  results_eq_nil : o.results = [] ↔
    ∀ members, read = .ok members → ∀ m ∈ members, ¬∃ v, HasValue binding options m v
  results_length : o.results ≠ [] → o.results.length = o.sources.length
  filled : ∀ (i : Nat) (r : Reported), o.results[i]? = some (some r) →
    (∃ members m v, read = .ok members ∧ members[i]? = some m ∧
      HasValue binding options m v ∧ r = .ofValue v) ∧
    (∃ x, o.expressions[i]? = some (some x)) ∧ ∃ x, o.canonical[i]? = some (some x)
  all_filled : o.success = true →
    0 < o.sources.length ∧ o.results.length = o.sources.length ∧ none ∉ o.results
  message_of_error : ∀ e, read = .error e → o.errorMessage = some e.message
  message_of_read : ∀ members, read = .ok members →
    ∃ entries, Entries binding options members entries ∧
      o.errorMessage = if entries = [] then none
        else some (Text.join "; " (entries.map (labelled o.sources.length)))

namespace Outcome

def fault? (m : MemberOutcome × Nat) : Option (Nat × String) :=
  match m.1.result with
  | .ok _ => none
  | .error text => some (m.2, text)

theorem fault?_eq_some {m : Member} {i j : Nat} {text : String} :
    fault? (.ofMember binding options m, i) = some (j, text) ↔
      i = j ∧ Fault binding options m text := by
  rw [← MemberOutcome.result_eq_error]
  cases h : (MemberOutcome.ofMember binding options m).result with
  | ok v => simp [fault?, h]
  | error e => simp [fault?, h]

theorem messages_eq_map (single : Bool) (index : Nat) (ms : List MemberOutcome) :
    messages single index ms = ((ms.zipIdx index).filterMap fault?).map fun entry =>
      if single then entry.2 else "member " ++ toString (entry.1 + 1) ++ ": " ++ entry.2 := by
  induction ms generalizing index with
  | nil => rfl
  | cons m ms ih =>
    cases hm : m.result with
    | ok v => simp [messages, fault?, hm, ih]
    | error e => simp [messages, fault?, hm, ih]

def faults (binding : Binding) (options : Evaluation.Options) (members : List Member) :
    List (Nat × String) :=
  ((members.map (MemberOutcome.ofMember binding options)).zipIdx).filterMap fault?

theorem mem_faults {members : List Member} {i : Nat} {text : String} :
    (i, text) ∈ faults binding options members ↔
      ∃ m, members[i]? = some m ∧ Fault binding options m text := by
  simp only [faults, List.mem_filterMap, Prod.exists, List.mk_mem_zipIdx_iff_getElem?,
    List.getElem?_map, Option.map_eq_some_iff]
  constructor
  · rintro ⟨_, j, ⟨m, hm, rfl⟩, hf⟩
    obtain ⟨rfl, hfault⟩ := fault?_eq_some.1 hf
    exact ⟨m, hm, hfault⟩
  · rintro ⟨m, hm, hfault⟩
    exact ⟨_, i, ⟨m, hm, rfl⟩, fault?_eq_some.2 ⟨rfl, hfault⟩⟩

theorem faults_ordered (members : List Member) :
    (faults binding options members).Pairwise fun a b => a.1 < b.1 := by
  have hplaces : ((members.map (MemberOutcome.ofMember binding options)).zipIdx).Pairwise
      fun a b => a.2 < b.2 := by
    rw [← List.pairwise_map, List.zipIdx_map_snd]
    exact List.pairwise_lt_range'
  refine List.Pairwise.filterMap fault? ?_ hplaces
  intro a b hlt x hx y hy
  have place {m : MemberOutcome × Nat} {entry : Nat × String} (h : fault? m = some entry) :
      entry.1 = m.2 := by
    simp only [fault?] at h
    split at h
    · cases h
    · cases h
      rfl
  rw [place hx, place hy]
  exact hlt

theorem entries_faults (members : List Member) :
    Entries binding options members (faults binding options members) where
  ordered := faults_ordered members
  fault_of_mem _ _ := mem_faults.1
  mem_iff i m hm := by
    simp only [mem_faults, hm, Option.some.injEq, exists_eq_left', exists_fault]

theorem messages_eq_labelled {members : List Member} (h : members ≠ []) :
    messages (members.length == 1) 0 (members.map (MemberOutcome.ofMember binding options)) =
      (faults binding options members).map (labelled members.length) := by
  rw [messages_eq_map, faults]
  refine List.map_congr_left fun entry _ => ?_
  have hpos : 0 < members.length := List.length_pos_iff.2 h
  by_cases hone : members.length = 1
  · simp [labelled, hone]
  · have hseveral : 2 ≤ members.length := by omega
    simp [labelled, hone, hseveral]

theorem reported_eq_some {m : Member} {r : Reported} :
    reported (.ofMember binding options m) = some r ↔
      ∃ v, HasValue binding options m v ∧ r = .ofValue v := by
  simp only [← MemberOutcome.result_eq_ok, reported]
  cases (MemberOutcome.ofMember binding options m).result with
  | ok v => simp [eq_comm]
  | error e => simp

theorem reported_eq_none {m : Member} :
    reported (.ofMember binding options m) = none ↔ ¬∃ v, HasValue binding options m v := by
  rw [Option.eq_none_iff_forall_ne_some]
  simp only [ne_eq, reported_eq_some]
  exact ⟨fun h ⟨v, hv⟩ => h _ ⟨v, hv, rfl⟩, fun h _ ⟨v, hv, _⟩ => h ⟨v, hv⟩⟩

theorem rendering_of_hasValue {m : Member} {v : Value} (h : HasValue binding options m v) :
    ∃ rendering, (MemberOutcome.ofMember binding options m).rendering = some rendering := by
  obtain ⟨x, hx, -⟩ := h
  simp only [MemberOutcome.ofMember, hx, Option.some.injEq, exists_eq']

theorem results_ofMembers (binding : Binding) (options : Evaluation.Options)
    (members : List Member) (parameters : List (String × Double)) :
    let o := ofMembers parameters (members.map (MemberOutcome.ofMember binding options))
    (o.results = [] ∧ ∀ m ∈ members, ¬∃ v, HasValue binding options m v) ∨
      (o.results = members.map (reported ∘ MemberOutcome.ofMember binding options) ∧
        ∃ m ∈ members, ∃ v, HasValue binding options m v) := by
  simp only [ofMembers, List.map_map]
  split
  · next hnone =>
    refine .inl ⟨rfl, fun m hm => reported_eq_none.1 ?_⟩
    simpa using List.all_eq_true.1 hnone _ (List.mem_map_of_mem hm)
  · next hsome =>
    simp only [List.all_eq_true, List.forall_mem_map, Option.isNone_iff_eq_none,
      Function.comp_apply, reported_eq_none] at hsome
    refine .inr ⟨rfl, Classical.byContradiction fun hvalue => hsome fun m hm hv => ?_⟩
    exact hvalue ⟨m, hm, hv⟩

theorem shape_failure (e : ReadingError) (parameters : List (String × Double)) :
    Shape binding options (.error e) (failure e.message parameters) where
  success_iff := by simp [failure]
  expressions_length := rfl
  canonical_length := rfl
  sources_eq_nil := by simp [failure]
  sources_of_read := by simp
  rendered_together := by simp [failure]
  results_eq_nil := by simp [failure]
  results_length := by simp [failure]
  filled := by simp [failure]
  all_filled := by simp [failure]
  message_of_error := by simp [failure]
  message_of_read := by simp

theorem shape_ofMembers {members : List Member} (h : members ≠ [])
    (parameters : List (String × Double)) :
    Shape binding options (.ok members)
      (ofMembers parameters (members.map (MemberOutcome.ofMember binding options))) where
  success_iff := by
    simp only [ofMembers]
    split <;> simp_all
  expressions_length := by simp [ofMembers]
  canonical_length := by simp [ofMembers]
  sources_eq_nil := by simp [ofMembers, h]
  sources_of_read := by
    rintro _ ⟨⟩
    simp [ofMembers, Function.comp_def]
  rendered_together i := by
    cases hm : members[i]? with
    | none => simp [ofMembers, hm]
    | some m =>
      cases hr : (MemberOutcome.ofMember binding options m).rendering with
      | none => simp [ofMembers, hm, hr]
      | some rendering => simp [ofMembers, hm, hr]
  results_eq_nil := by
    simp only [Except.ok.injEq, forall_eq']
    obtain ⟨hresults, hnone⟩ | ⟨hresults, m, hm, hv⟩ :=
      results_ofMembers binding options members parameters
    · exact iff_of_true hresults hnone
    · refine iff_of_false ?_ fun hnone => hnone m hm hv
      simp [hresults, h]
  results_length hne := by
    obtain ⟨hresults, -⟩ | ⟨hresults, -⟩ :=
      results_ofMembers binding options members parameters
    · exact absurd hresults hne
    · rw [hresults]
      simp [ofMembers]
  filled i r hr := by
    obtain ⟨hresults, -⟩ | ⟨hresults, -⟩ :=
      results_ofMembers binding options members parameters
    · simp [hresults] at hr
    · simp only [hresults, List.getElem?_map, Option.map_eq_some_iff, Function.comp_apply] at hr
      obtain ⟨m, hm, hslot⟩ := hr
      obtain ⟨v, hv, rfl⟩ := reported_eq_some.1 hslot
      obtain ⟨rendering, hrendering⟩ := rendering_of_hasValue hv
      refine ⟨⟨members, m, v, rfl, hm, hv, rfl⟩, ⟨rendering.expression, ?_⟩,
        rendering.canonical, ?_⟩
      · simp [ofMembers, hm, hrendering]
      · simp [ofMembers, hm, hrendering]
  all_filled hsuccess := by
    have hvalues : ∀ m ∈ members, ∃ v, HasValue binding options m v := by
      simpa only [ofMembers, List.isEmpty_iff, messages_eq_nil, List.forall_mem_map,
        MemberOutcome.result_eq_ok] using hsuccess
    obtain ⟨m, hm⟩ := List.exists_mem_of_ne_nil members h
    obtain ⟨hresults, hnone⟩ | ⟨hresults, -⟩ :=
      results_ofMembers binding options members parameters
    · exact absurd (hvalues m hm) (hnone m hm)
    · refine ⟨?_, ?_, ?_⟩
      · simpa [ofMembers] using List.length_pos_iff.2 h
      · rw [hresults]
        simp [ofMembers]
      · rw [hresults, List.mem_map]
        rintro ⟨n, hn, hslot⟩
        exact reported_eq_none.1 hslot (hvalues n hn)
  message_of_error := by simp
  message_of_read := by
    rintro _ ⟨⟩
    refine ⟨_, entries_faults members, ?_⟩
    simp only [ofMembers, List.length_map, messages_eq_labelled h, List.isEmpty_iff,
      List.map_eq_nil_iff]

/-- The outcome of every answer has the shape that its members call for. -/
theorem shape_ofAnswer (binding : Binding) (options : Evaluation.Options) (latex : String) :
    Shape binding options (Answer.read binding.names latex) (ofAnswer binding options latex) := by
  cases hread : Answer.read binding.names latex with
  | error e =>
    simp only [ofAnswer, hread]
    exact shape_failure e binding.entries
  | ok members =>
    simp only [ofAnswer, hread]
    exact shape_ofMembers (Answer.members_ne_nil hread) binding.entries

end Outcome

end AnswerKey.Grading

import AnswerKey.Grading.Session
import AnswerKey.Proofs.Double.Encoding

/-! The values that the steps of a session are graded under. Which words a step
takes is known from the declarations before it and its own. -/
namespace AnswerKey

theorem nodup_of_pairwise_idxOf {names raw : List String}
    (h : names.Pairwise (raw.idxOf · < raw.idxOf ·)) : names.Nodup :=
  h.imp fun hlt heq => absurd (heq ▸ hlt) (Nat.lt_irrefl _)

theorem pairwise_eraseDups (raw : List String) :
    raw.eraseDups.Pairwise (raw.idxOf · < raw.idxOf ·) := by
  induction raw using List.reverseRecOn with
  | nil => exact .nil
  | append_singleton raw name ih =>
    have before {n : String} (hn : n ∈ raw) : (raw ++ [name]).idxOf n = raw.idxOf n :=
      List.idxOf_append_of_mem hn
    rw [List.eraseDups_append, List.pairwise_append]
    refine ⟨?_, ?_, ?_⟩
    · refine ih.imp_of_mem fun {m n} hm hn hlt => ?_
      rwa [before (List.mem_eraseDups.1 hm), before (List.mem_eraseDups.1 hn)]
    · by_cases hname : name ∈ raw <;> simp [List.removeAll, hname, List.eraseDups_cons]
    · intro m hm n hn
      rw [List.mem_eraseDups] at hm hn
      obtain ⟨hn, hnew⟩ : n = name ∧ n ∉ raw := by simpa [List.removeAll] using hn
      subst hn
      rw [before hm, List.idxOf_append_of_notMem hnew]
      exact Nat.lt_of_lt_of_le (List.idxOf_lt_length_of_mem hm) (Nat.le_add_right _ _)

theorem nodup_eraseDups (raw : List String) : raw.eraseDups.Nodup :=
  nodup_of_pairwise_idxOf (pairwise_eraseDups raw)

theorem eraseDups_of_nodup {names : List String} (h : names.Nodup) : names.eraseDups = names := by
  induction names with
  | nil => rfl
  | cons name rest ih =>
    obtain ⟨hname, hrest⟩ := List.nodup_cons.1 h
    have hkept : rest.filter (fun other => !other == name) = rest :=
      List.filter_eq_self.2 fun other hother => by
        simpa using fun heq : other = name => hname (heq ▸ hother)
    rw [List.eraseDups_cons, hkept, ih hrest]

namespace Binding

theorem toNat_upperBits (w : UInt64) : (w >>> 12).toNat = w.toNat / 2 ^ 12 := by
  simp [Nat.shiftRight_eq_div_pow]

theorem exact_unitDraw (w : UInt64) :
    (unitDraw w).exact = some (1 + ((w >>> 12).toNat : ℚ) / 2 ^ 52) := by
  have hlt := w.toNat_lt
  have hmantissa : 2 ^ 52 ≤ 2 ^ 52 + w.toNat / 2 ^ 12 ∧ 2 ^ 52 + w.toNat / 2 ^ 12 < 2 ^ 53 := by
    omega
  have hexponent : Double.leastExponent + (1022 : Nat) = -52 := rfl
  have hshape := Double.shape_encode hmantissa.1 hmantissa.2 (by decide : 1022 ≤ 2045)
  rw [hexponent] at hshape
  change (unitDraw w).shape = _ at hshape
  simp only [Double.exact, hshape, toNat_upperBits]
  rw [zpow_neg]
  push_cast
  field_simp
  norm_num

theorem unitDraw_range (w : UInt64) : ∃ q, (unitDraw w).exact = some q ∧ 1 ≤ q ∧ q < 2 := by
  have hlt : (w >>> 12).toNat < 2 ^ 52 := by
    have := w.toNat_lt
    rw [toNat_upperBits]
    omega
  have hfraction : ((w >>> 12).toNat : ℚ) / 2 ^ 52 < 1 := by
    rw [div_lt_one (by positivity)]
    exact_mod_cast hlt
  refine ⟨_, exact_unitDraw w, ?_, by linarith⟩
  have : 0 ≤ ((w >>> 12).toNat : ℚ) / 2 ^ 52 := by positivity
  linarith

variable {words words' : Words} {seen names : List String} {taken taken' : Nat} {name : String}

/-- The names that a draw comes to: those that have not been seen yet, once each. -/
def unseen (seen names : List String) : List String := (names.filter (· ∉ seen)).eraseDups

theorem unseen_nil (names : List String) : unseen [] names = names.eraseDups := by
  simp [unseen]

theorem unseen_cons_of_mem (h : name ∈ seen) :
    unseen seen (name :: names) = unseen seen names := by
  simp [unseen, h]

theorem unseen_cons_of_notMem (h : name ∉ seen) :
    unseen seen (name :: names) = name :: unseen (name :: seen) names := by
  have again : (names.filter (· ∉ seen)).filter (fun other => !other == name) =
      names.filter (· ∉ name :: seen) := by
    rw [List.filter_filter]
    congr 1
    funext other
    by_cases heq : other = name <;> simp [heq]
  rw [unseen, List.filter_cons_of_pos (by simpa using h), List.eraseDups_cons, again, unseen]

theorem notMem_unseen_cons : name ∉ unseen (name :: seen) names := by
  simp [unseen, List.mem_eraseDups]

def wordTakers (names : List String) : List String := names.filter (· ≠ fixedName)

/-- The value that a name has where the takers have one word each in a row. -/
def valueAt (words : Words) (taken : Nat) (takers : List String) (name : String) : Double :=
  if name = fixedName then fixedValue else unitDraw (words (taken + takers.idxOf name))

/-- What a draw gives, and where it stops. -/
theorem drawEach_eq : drawEach words seen taken names =
    ((unseen seen names).map fun n => (n, valueAt words taken (wordTakers (unseen seen names)) n),
      taken + (wordTakers (unseen seen names)).length) := by
  induction names generalizing seen taken with
  | nil => rfl
  | cons name rest ih =>
    by_cases hseen : name ∈ seen
    · rw [drawEach, if_pos hseen, unseen_cons_of_mem hseen, ih]
    · have later {n : String} (hn : n ∈ unseen (name :: seen) rest) : n ≠ name :=
        fun heq => notMem_unseen_cons (heq ▸ hn)
      simp only [drawEach, if_neg hseen, unseen_cons_of_notMem hseen, ih, List.map_cons]
      by_cases hfixed : name = fixedName
      · have takers : wordTakers (name :: unseen (name :: seen) rest) =
            wordTakers (unseen (name :: seen) rest) :=
          List.filter_cons_of_neg (by simp [hfixed])
        rw [takers]
        simp [drawOne, valueAt, hfixed]
      · have takers : wordTakers (name :: unseen (name :: seen) rest) =
            name :: wordTakers (unseen (name :: seen) rest) :=
          List.filter_cons_of_pos (by simp [hfixed])
        rw [takers]
        refine Prod.ext (congrArg₂ List.cons ?_ (List.map_congr_left fun n hn => ?_)) ?_
        · simp [drawOne, valueAt, hfixed]
        · have hne : (name == n) = false := beq_false_of_ne (later hn).symm
          simp only [drawOne, valueAt, if_neg hfixed, List.idxOf_cons, hne, cond_false]
          rw [Nat.add_assoc, Nat.add_comm 1]
        · simp only [drawOne, if_neg hfixed, List.length_cons]
          omega

theorem ofList_of_nodup {entries : List (String × Double)} (h : (entries.map (·.1)).Nodup) :
    ofList entries = ⟨entries⟩ := by
  have kept : entries.foldr keepFirst [] = entries := by
    induction entries with
    | nil => rfl
    | cons entry rest ih =>
      obtain ⟨hentry, hrest⟩ := List.nodup_cons.1 h
      rw [List.foldr_cons, ih hrest, keepFirst, List.filter_eq_self.2]
      intro other hother
      exact decide_eq_true fun heq => hentry (List.mem_map.2 ⟨other, hother, heq⟩)
  rw [ofList, kept]

theorem drawFrom_eq : drawFrom words taken names =
    (⟨names.eraseDups.map fun n => (n, valueAt words taken (wordTakers names.eraseDups) n)⟩,
      taken + (wordTakers names.eraseDups).length) := by
  have hnames (f : String → Double) :
      ((names.eraseDups.map fun n => (n, f n)).map (·.1)).Nodup := by
    simpa [Function.comp_def] using nodup_eraseDups names
  simp only [drawFrom, drawEach_eq, unseen_nil, ofList_of_nodup (hnames _)]

theorem names_draw : (draw words taken names).names = names.eraseDups := by
  simp [draw, drawFrom_eq, Binding.names, Function.comp_def]

theorem get_draw (h : name ∈ names) : (draw words taken names).get? name =
    some (valueAt words taken (wordTakers names.eraseDups) name) := by
  have lookup {f : String → Double} {ns : List String} (hn : name ∈ ns) :
      (ns.map fun n => (n, f n)).lookup name = some (f name) := by
    induction ns with
    | nil => cases hn
    | cons n rest ih =>
      rw [List.map_cons, List.lookup_cons]
      cases heq : name == n with
      | true => rw [eq_of_beq heq]
      | false => exact ih ((List.mem_cons.1 hn).resolve_left fun h => by simp [h] at heq)
  rw [draw, drawFrom_eq]
  exact lookup (List.mem_eraseDups.2 h)

/-- A draw takes one word for each different name besides the fixed one. -/
theorem length_wordTakers (raw : List String) :
    (wordTakers raw.eraseDups).length = (raw.toFinset.erase fixedName).card := by
  have hnodup : (wordTakers raw.eraseDups).Nodup :=
    (nodup_eraseDups raw).filter fun name => decide (name ≠ fixedName)
  rw [← List.toFinset_card_of_nodup hnodup]
  congr 1
  ext name
  simp [wordTakers, and_comm]

theorem drawFrom_snd (words : Words) (taken : Nat) (raw : List String) :
    (drawFrom words taken raw).2 = taken + (raw.toFinset.erase fixedName).card := by
  rw [drawFrom_eq, length_wordTakers]

/-- Values for declared names, drawn from the words from an offset on. -/
structure Drawn (words : Words) (offset : Nat) (raw : List String) (b : Binding) : Prop where
  nodup : b.names.Nodup
  mem_names (name : String) : name ∈ b.names ↔ name ∈ raw
  ordered : b.names.Pairwise (raw.idxOf · < raw.idxOf ·)
  fixed (h : fixedName ∈ raw) : b.get? fixedName = some 2
  /-- The others have one word each, in order. -/
  drawn (i : Nat) (name : String) (h : (b.names.filter (· ≠ fixedName))[i]? = some name) :
    ∃ v, b.get? name = some v ∧
      v.exact = some (1 + ((words (offset + i) >>> 12).toNat : ℚ) / 2 ^ 52)
  inRange (name : String) (h : name ∈ raw) (hname : name ≠ fixedName) :
    ∃ v q, b.get? name = some v ∧ v.exact = some q ∧ 1 ≤ q ∧ q < 2
  /-- Of other words the values do not depend. -/
  onlyWords (words' : Words) (offset' : Nat)
    (h : ∀ i < (raw.toFinset.erase fixedName).card, words' (offset' + i) = words (offset + i)) :
    draw words' offset' raw = b

theorem drawn_draw (words : Words) (offset : Nat) (raw : List String) :
    Drawn words offset raw (draw words offset raw) := by
  have idxOf_lt {name : String} (h : name ∈ raw) (hname : name ≠ fixedName) :
      (wordTakers raw.eraseDups).idxOf name < (raw.toFinset.erase fixedName).card := by
    rw [← length_wordTakers]
    exact List.idxOf_lt_length_of_mem
      (List.mem_filter.2 ⟨List.mem_eraseDups.2 h, decide_eq_true hname⟩)
  constructor
  case nodup => exact names_draw ▸ nodup_eraseDups raw
  case mem_names => intro name; rw [names_draw, List.mem_eraseDups]
  case ordered => exact names_draw ▸ pairwise_eraseDups raw
  case fixed =>
    intro h
    rw [get_draw h, valueAt, if_pos rfl]
    rfl
  case drawn =>
    intro i name h
    rw [names_draw] at h
    obtain ⟨hi, rfl⟩ := List.getElem?_eq_some_iff.1 h
    obtain ⟨hmem, hname⟩ := List.mem_filter.1 (List.getElem_mem hi)
    have place : (wordTakers raw.eraseDups).idxOf _ = i :=
      ((nodup_eraseDups raw).filter _).idxOf_getElem i hi
    rw [get_draw (List.mem_eraseDups.1 hmem), valueAt, if_neg (of_decide_eq_true hname), place]
    exact ⟨_, rfl, exact_unitDraw _⟩
  case inRange =>
    intro name h hname
    rw [get_draw h, valueAt, if_neg hname]
    obtain ⟨q, hq, hrange⟩ := unitDraw_range (words (offset + (wordTakers raw.eraseDups).idxOf name))
    exact ⟨_, q, rfl, hq, hrange⟩
  case onlyWords =>
    intro words' offset' h
    simp only [draw, drawFrom_eq, Binding.mk.injEq]
    refine List.map_congr_left fun name hname => ?_
    by_cases hfixed : name = fixedName
    · simp [valueAt, hfixed]
    · simp only [valueAt, if_neg hfixed, h _ (idxOf_lt (List.mem_eraseDups.1 hname) hfixed)]

end Binding

namespace Grading

inductive Step where
  | grade (latex parameters : String)
  | compareAnswers (reference response parameters : String)

inductive Report where
  | outcome (o : Outcome)
  | verdict (v : Verdict)

namespace Step

def parameters : Step → String
  | grade _ parameters | compareAnswers _ _ parameters => parameters

def written (s : Step) : Except Declaration.Error (List String) :=
  if s.parameters.toList.all Text.isBlank then .ok []
  else do
    let tokens ← (Token.lex s.parameters).mapError .lexical
    (Declaration.namesFrom (.start tokens (Text.size s.parameters.toList))).mapError .grammatical

/-- How many different names a step declares besides the fixed one. Where the
declaration cannot be read there are none. -/
def draws (s : Step) : Nat :=
  match s.written with
  | .ok raw => (raw.toFinset.erase Binding.fixedName).card
  | .error _ => 0

def reportUnder (settings : Settings) (b : Binding) : Step → Report
  | grade latex _ => .outcome (Outcome.ofAnswer b settings.options latex)
  | compareAnswers reference response _ =>
    .verdict (Verdict.ofOutcomes (Outcome.ofAnswer b settings.options reference)
      (Outcome.ofAnswer b settings.options (Answer.isolate response)) settings.tolerance)

def refusal (e : Declaration.Error) : Step → Report
  | grade _ _ => .outcome (Outcome.failure (Session.invalidParameters e) [])
  | compareAnswers _ _ _ => .verdict (Verdict.failure (Session.invalidParameters e))

end Step

namespace Session

def step (s : Session) : Step → Report × Session
  | .grade latex parameters =>
    let (o, next) := s.grade latex parameters
    (.outcome o, next)
  | .compareAnswers reference response parameters =>
    let (v, next) := s.compareAnswers reference response parameters
    (.verdict v, next)

def run (s : Session) : List Step → List Report × Session
  | [] => ([], s)
  | step :: rest =>
    let (report, next) := s.step step
    let (reports, last) := next.run rest
    (report :: reports, last)

variable (s : Session)

theorem declared_parameters (step : Step) :
    declared step.parameters = step.written.map List.eraseDups := by
  unfold declared Step.written Declaration.names Declaration.distinct
  split
  · rfl
  · cases (Token.lex step.parameters).mapError Declaration.Error.lexical with
    | error e => rfl
    | ok tokens => rfl

theorem bind_parameters (step : Step) :
    s.bind step.parameters = (step.written.map (Binding.draw s.words s.taken),
      { s with taken := s.taken + step.draws }) := by
  unfold bind
  rw [declared_parameters, Step.draws]
  cases step.written with
  | error e => rfl
  | ok raw =>
    have again : Binding.drawFrom s.words s.taken raw.eraseDups =
        Binding.drawFrom s.words s.taken raw := by
      rw [Binding.drawFrom_eq, Binding.drawFrom_eq, eraseDups_of_nodup (nodup_eraseDups raw)]
    simp only [Except.map, again, Binding.draw, Binding.drawFrom_snd]

theorem step_eq (step : Step) : s.step step =
    ((match step.written with
      | .ok raw => step.reportUnder s.settings (Binding.draw s.words s.taken raw)
      | .error e => step.refusal e), { s with taken := s.taken + step.draws }) := by
  cases step with
  | grade latex parameters =>
    have hbind := s.bind_parameters (.grade latex parameters)
    simp only [Session.step, grade]
    rw [show s.bind parameters = _ from hbind]
    cases Step.written (.grade latex parameters) <;> rfl
  | compareAnswers reference response parameters =>
    have hbind := s.bind_parameters (.compareAnswers reference response parameters)
    simp only [Session.step, compareAnswers]
    rw [show s.bind parameters = _ from hbind]
    cases Step.written (.compareAnswers reference response parameters) <;> rfl

theorem run_session (steps : List Step) :
    (s.run steps).2 = { s with taken := s.taken + (steps.map Step.draws).sum } := by
  induction steps generalizing s with
  | nil => rfl
  | cons step rest ih =>
    simp only [run, step_eq, ih, List.map_cons, List.sum_cons, Nat.add_assoc]

theorem length_run (steps : List Step) : (s.run steps).1.length = steps.length := by
  induction steps generalizing s with
  | nil => rfl
  | cons step rest ih => exact congrArg (· + 1) (ih (s.step step).2)

theorem getElem?_run (before : List Step) (step : Step) (after : List Step) :
    (s.run (before ++ step :: after)).1[before.length]? =
      some (((s.run before).2.step step).1) := by
  induction before generalizing s with
  | nil => rfl
  | cons first rest ih => exact ih (s.step first).2

end Session

/-- In a run from the start of a stream of words the steps before a step take one
word for each different name that they declare besides the fixed one, where the
declaration can be read. What the texts are otherwise makes no difference. The
step is graded under values drawn from the words after those. -/
theorem Session.run_draws (words : Words) (settings : Settings) (before : List Step) (step : Step)
    (after : List Step) :
    let steps := before ++ step :: after
    let offset := (before.map Step.draws).sum
    let reports := ((start words settings).run steps).1
    ((start words settings).run steps).2.taken = (steps.map Step.draws).sum ∧
    reports.length = steps.length ∧
    match step.written with
    | .ok raw => ∃ b, Binding.Drawn words offset raw b ∧
        reports[before.length]? = some (step.reportUnder settings b)
    | .error e => reports[before.length]? = some (step.refusal e) := by
  have hreport := (start words settings).getElem?_run before step after
  rw [run_session, step_eq] at hreport
  simp only [start, Nat.zero_add] at hreport
  refine ⟨?_, (start words settings).length_run _, ?_⟩
  · rw [run_session]
    exact Nat.zero_add _
  · cases hwritten : step.written with
    | error e =>
      rw [hwritten] at hreport
      exact hreport
    | ok raw =>
      rw [hwritten] at hreport
      exact ⟨_, Binding.drawn_draw words _ raw, hreport⟩

example : ((Session.start (fun _ => 0) {}).run [.grade "b+x" "b,a,b,x", .grade "1" "1?",
    .compareAnswers "a" "a" "a"]).2.taken = 3 := by decide +kernel

end Grading

end AnswerKey

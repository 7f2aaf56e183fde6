import AnswerKey.Proofs.Answer.Single
import AnswerKey.Proofs.Evaluation.Causes
import Mathlib

/-! When an evaluation fails on an unknown name, and on which one. -/
namespace AnswerKey

open Evaluation

/-- An unknown name that an error reports is mentioned: as that of a call, or
free and without a meaning. -/
def Blames (b : Binding) (mentions : List Mention) (e : EvaluationError) : Prop :=
  ∀ name, e = .unknownParameter name →
    ∃ m ∈ mentions, m.name = name ∧ (m.isCall = true ∨ (m.IsFree ∧ b.Unknown name))

section

variable {b : Binding} {options : Options} {scopes : Scopes} {ms ms' : List Mention}

theorem Blames.mono {e : EvaluationError} (h : Blames b ms e) (hs : ∀ m ∈ ms, m ∈ ms') :
    Blames b ms' e := by
  intro name hn
  obtain ⟨m, hm, h⟩ := h name hn
  exact ⟨m, hs m hm, h⟩

theorem blames_of_isApplication {e : EvaluationError} (h : e.IsApplication) : Blames b ms e := by
  rintro name rfl
  exact h.elim

namespace Expr

theorem Raises.blames {x : Expr} {bound : List String} {e : EvaluationError}
    (h : x.Raises b bound e) : Blames b (x.ownMentions bound) e := by
  intro name hn
  cases h with
  | arithmetic _ he => exact blames_of_isApplication he.isApplication name hn
  | apply he | powered he => exact blames_of_isApplication he name hn
  | unbound hbound hname =>
    obtain rfl := EvaluationError.unknownParameter.inj hn
    exact ⟨_, List.mem_singleton_self _, rfl, .inr ⟨hbound, hname⟩⟩
  | called =>
    obtain rfl := EvaluationError.unknownParameter.inj hn
    exact ⟨_, List.mem_singleton_self _, rfl, .inl rfl⟩
  | indefinite | nested => cases hn

theorem EndsIn.blames {x : Expr} {bound : List String} {e : EvaluationError}
    (h : EndsIn b bound x e) : Blames b (x.mentions bound) e := by
  induction h with
  | here h => exact h.blames.mono fun m hm => mem_mentions.2 (.inl hm)
  | inside hp _ ih => exact ih.mono fun m hm => mem_mentions.2 (.inr ⟨_, hp, hm⟩)

/-- A function is called by the name of a variable that is bound around the
call. -/
def CallsBound (x : Expr) (name : String) : Prop :=
  ∃ m ∈ x.mentions [], m.name = name ∧ m.isCall = true ∧ ¬m.IsFree

variable {x t : Expr}

theorem evaluate_of_least {name : String} (ht : x.target = .ok t) (h : Least (t.Strays b) name) :
    x.evaluate b options = .error (.unknownParameter name) := by
  have hc : b.check t = .error (.unknownParameter name) := Binding.check_eq_error.2 ⟨name, h, rfl⟩
  rw [evaluate_of_target ht, hc]
  rfl

theorem least_of_evaluate {name : String} (ht : x.target = .ok t)
    (hcalls : t.CallsOnly fun name => Grammar.callable b.names name = true)
    (h : x.evaluate b options = .error (.unknownParameter name)) :
    Least (t.Strays b) name ∨ t.CallsBound name := by
  rw [evaluate_of_target ht] at h
  cases hc : b.check t with
  | error e =>
    obtain ⟨other, hl, rfl⟩ := Binding.check_eq_error.1 hc
    rw [hc] at h
    obtain rfl := EvaluationError.unknownParameter.inj (Except.error.inj h)
    exact .inl hl
  | ok _ =>
    -- No name strays, so the blamed mention is a call, and not a free one.
    have hs := Binding.check_eq_ok.1 hc name
    rw [hc] at h
    obtain ⟨m, hm, rfl, hb⟩ := EndsIn.blames (@eval_endsIn b options [] t _ h) name rfl
    by_cases hf : m.IsFree
    · refine absurd ⟨⟨m, hm, rfl, hf⟩, ?_⟩ hs
      rcases hb with hcall | ⟨-, hu⟩
      · exact Binding.unknown_of_callable (hcalls [] m hm hcall)
      · exact hu
    · rcases hb with hcall | ⟨hf', -⟩
      · exact .inr ⟨m, hm, rfl, hcall, hf⟩
      · exact absurd hf' hf

end Expr

/-- An unknown parameter is reported just if a name strays in what is evaluated,
and it is then the least such name. Left aside are functions that are called by
the name of a variable bound around them. A relation other than an equation is
refused as such. -/
theorem Answer.evaluate_unknownParameter {latex : String} {members : List Member} {m : Member}
    {x : Expr} (h : Answer.read b.names latex = .ok members) (hm : m ∈ members)
    (hx : m.expr = .ok x) :
    (∀ r left right, x = .relation r left right → r ≠ .equal →
      x.evaluate b options = .error (.valueless (.relation r))) ∧
    ∀ t, x.target = .ok t → ∀ name,
      (Least (t.Strays b) name → x.evaluate b options = .error (.unknownParameter name)) ∧
      (x.evaluate b options = .error (.unknownParameter name) →
        Least (t.Strays b) name ∨ t.CallsBound name) := by
  refine ⟨?_, fun t ht name => ⟨Expr.evaluate_of_least ht, ?_⟩⟩
  · rintro r left right rfl hr
    cases r with
    | equal => exact absurd rfl hr
    | _ => rfl
  · exact Expr.least_of_evaluate ht ((callsOnly_of_read h hm hx).of_target ht)

end

theorem Answer.evaluate_undeclared_factor :
    (Expr.binary .mul (.symbol "x") (.symbol "y")).evaluate ⟨[("x", 2)]⟩ {} =
      .error (.unknownParameter "y") := by
  have h : Answer.read ["x"] "xy" =
      .ok [⟨"xy", .ok (.binary .mul (.symbol "x") (.symbol "y"))⟩] := by cbv
  have strays {name : String}
      (hn : (Expr.binary .mul (.symbol "x") (.symbol "y")).Strays ⟨[("x", 2)]⟩ name) :
      name = "y" := by
    obtain ⟨⟨m, hm, rfl, -⟩, hv, -⟩ := hn
    simp only [Expr.mentions, List.cons_append, List.nil_append, List.mem_cons, List.not_mem_nil,
      or_false] at hm
    rcases hm with rfl | rfl
    · simp [Binding.get?] at hv
    · rfl
  have least : Least ((Expr.binary .mul (.symbol "x") (.symbol "y")).Strays ⟨[("x", 2)]⟩) "y" := by
    refine ⟨⟨⟨⟨"y", false, []⟩, by simp [Expr.mentions], rfl, by decide⟩, by simp [Binding.get?],
      rfl⟩, fun other ho => ?_⟩
    rw [strays ho]
    exact String.lt_irrefl "y"
  exact ((@evaluate_unknownParameter ⟨[("x", 2)]⟩ {} "xy" _ _ _ h List.mem_cons_self rfl).2
    _ rfl "y").1 least

def blamedName? : Evaluated Value → Option String
  | .error (.unknownParameter name) => some name
  | _ => none

theorem blamedName?_eq_some {a : Evaluated Value} {name : String} :
    blamedName? a = some name ↔ a = .error (.unknownParameter name) := by
  unfold blamedName?
  split <;> simp_all

/-- An inequality is refused although a name strays in it, and a call by the name
of the variable of a limit is reported although no name strays. -/
theorem Answer.evaluate_inequality_and_bound_call :
    (∃ x, single? [] "y<z" = some x ∧ x.Strays ⟨[]⟩ "y" ∧
      x.evaluate ⟨[]⟩ {} = .error (.valueless (.relation .less))) ∧
    ∃ x, single? [] "\\lim_\x7bt\\to\\infty\x7dt(t)" = some x ∧ (∀ name, ¬x.Strays ⟨[]⟩ name) ∧
      x.evaluate ⟨[]⟩ {} = .error (.unknownParameter "t") := by
  constructor
  · refine ⟨.relation .less (.symbol "y") (.symbol "z"), by cbv, ?_, rfl⟩
    exact ⟨⟨_, List.mem_cons_self, rfl, by decide⟩, rfl, rfl⟩
  · have h : (single? [] "\\lim_\x7bt\\to\\infty\x7dt(t)").any (fun x => x.freeSymbols.isEmpty &&
        blamedName? (x.evaluate ⟨[]⟩ {}) == some "t") = true := by decide +kernel
    obtain ⟨x, hx, hp⟩ := (Option.any_eq_true _ _).1 h
    simp only [Bool.and_eq_true, List.isEmpty_iff, beq_iff_eq] at hp
    refine ⟨x, hx, fun name hs => ?_, blamedName?_eq_some.1 hp.2⟩
    have hm := (Binding.strays_iff.1 hs).1
    rw [hp.1] at hm
    cases hm

end AnswerKey

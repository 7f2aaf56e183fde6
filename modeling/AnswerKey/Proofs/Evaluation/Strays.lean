import AnswerKey.Evaluation
import AnswerKey.Proofs.Expr.Calls

/-! The names that keep an expression from being evaluated, and the check that
reports the least of them. -/
namespace AnswerKey

def Binding.Unknown (b : Binding) (name : String) : Prop :=
  b.get? name = none ∧ Constant.ofName? name = none

def Expr.Strays (b : Binding) (x : Expr) (name : String) : Prop :=
  (∃ m ∈ x.mentions [], m.name = name ∧ m.IsFree) ∧ b.Unknown name

def Least (P : String → Prop) (name : String) : Prop :=
  P name ∧ ∀ other, P other → ¬other < name

theorem Least.unique {P : String → Prop} {name other : String} (h : Least P name)
    (h' : Least P other) : name = other :=
  String.le_antisymm (String.not_lt.1 (h.2 other h'.1)) (String.not_lt.1 (h'.2 name h.1))

theorem find_eq_some_of_ascending {xs : List String} {p : String → Bool} {name : String}
    (hs : Ascending xs) (h : xs.find? p = some name) :
    Least (fun other => other ∈ xs ∧ p other = true) name := by
  obtain ⟨hp, before, after, rfl, hb⟩ := List.find?_eq_some_iff_append.1 h
  refine ⟨⟨by simp, hp⟩, fun other ho hlt => ?_⟩
  rcases List.mem_append.1 ho.1 with hm | hm
  · have := hb other hm
    simp [ho.2] at this
  · rcases List.mem_cons.1 hm with rfl | hm
    · exact String.lt_irrefl _ hlt
    · have hl : name < other := (List.pairwise_cons.1 (List.pairwise_append.1 hs).2.1).1 other hm
      exact String.lt_irrefl _ (String.lt_trans hlt hl)

namespace Binding

variable {b : Binding} {x : Expr} {name : String}

theorem get?_eq_none : b.get? name = none ↔ name ∉ b.names := by
  rw [get?, names, List.lookup_eq_none_iff, List.mem_map]
  constructor
  · rintro h ⟨p, hp, rfl⟩
    simpa using h p hp
  · intro h p hp
    exact bne_iff_ne.2 fun hn => h ⟨p, hp, hn.symm⟩

theorem unknown_of_callable (h : Grammar.callable b.names name = true) : b.Unknown name := by
  simp only [Grammar.callable, Bool.and_eq_true, Bool.not_eq_true', Option.isNone_iff_eq_none] at h
  exact ⟨get?_eq_none.2 (by simpa using h.1), h.2⟩

theorem strays_iff : x.Strays b name ↔ name ∈ x.freeSymbols ∧
    ((b.get? name).isNone && (Constant.ofName? name).isNone) = true := by
  simp [Expr.Strays, Expr.freeSymbols, Expr.mem_freeNames, Unknown]

theorem check_eq_error {e : EvaluationError} :
    b.check x = .error e ↔ ∃ name, Least (x.Strays b) name ∧ e = .unknownParameter name := by
  unfold check
  have least {name : String} (h : x.freeSymbols.find? (fun name =>
      (b.get? name).isNone && (Constant.ofName? name).isNone) = some name) :
      Least (x.Strays b) name := by
    have hl := find_eq_some_of_ascending Expr.ascending_freeNames h
    exact ⟨strays_iff.2 hl.1, fun other ho => hl.2 other (strays_iff.1 ho)⟩
  constructor
  · intro h
    split at h
    · next name hf => exact ⟨name, least hf, by simpa using h.symm⟩
    · cases h
  · rintro ⟨name, hl, rfl⟩
    split
    · next other hf => rw [hl.unique (least hf)]
    · next hf =>
      obtain ⟨hm, hp⟩ := strays_iff.1 hl.1
      exact absurd hp (List.find?_eq_none.1 hf name hm)

theorem check_eq_ok : b.check x = .ok () ↔ ∀ name, ¬x.Strays b name := by
  simp only [strays_iff, check]
  split
  · next name hf =>
    constructor
    · intro h
      cases h
    · intro h
      have hp := List.find?_some hf
      exact absurd ⟨List.mem_of_find?_eq_some hf, hp⟩ (h name)
  · next hf =>
    simp only [true_iff, not_and]
    exact fun name hm => List.find?_eq_none.1 hf name hm

theorem check_congr {b' : Binding} {x' : Expr}
    (h : ∀ name, x.Strays b name ↔ x'.Strays b' name) : b.check x = b'.check x' := by
  have hs : x.Strays b = x'.Strays b' := funext fun name => propext (h name)
  cases hc : b.check x with
  | error e =>
    rw [check_eq_error, hs] at hc
    exact (check_eq_error.2 hc).symm
  | ok _ =>
    have := check_eq_ok.1 hc
    rw [hs] at this
    exact (check_eq_ok.2 this).symm

end Binding

theorem Expr.evaluate_of_target {b : Binding} {options : Evaluation.Options} {x t : Expr}
    (ht : x.target = .ok t) : x.evaluate b options = (do b.check t; t.eval b options []) := by
  simp only [evaluate, ht]
  rfl

theorem Expr.CallsOnly.of_target {P : String → Prop} {x t : Expr} (h : x.CallsOnly P)
    (ht : x.target = .ok t) : t.CallsOnly P := by
  unfold Expr.target at ht
  split at ht
  · next l r =>
    obtain rfl := Except.ok.inj ht
    exact fun bound m hm => h bound m (List.mem_append_right _ hm)
  · cases ht
  · obtain rfl := Except.ok.inj ht
    exact h

end AnswerKey

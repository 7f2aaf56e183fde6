import AnswerKey.Proofs.Answer.Single
import AnswerKey.Proofs.Evaluation.Causes

/-! Which constructs of an answer have no value. An expression that was read
applies its functions to as many arguments as they take, and is a relation at
most as a whole. -/
namespace AnswerKey

open Evaluation

namespace Expr

def application? : Expr → Option (Builtin × Nat)
  | apply f args | powered f _ args => some (f, args.length)
  | _ => none

def IsRelation (x : Expr) : Prop := ∃ r left right, x = relation r left right

def HasIndefinite (x : Expr) : Prop :=
  ∃ lower upper integrand name, (integral lower upper integrand name).Occurs x ∧
    (lower = none ∨ upper = none)

/-- Functions are applied to as many arguments as they take, and there is no
relation. -/
structure Regular (x : Expr) : Prop where
  accepts (y : Expr) (f : Builtin) (count : Nat) (hy : y.Occurs x)
    (hf : y.application? = some (f, count)) : f.accepts count = true
  unrelated (y : Expr) (hy : y.Occurs x) : ¬y.IsRelation

/-- The errors that a regular expression can still end in. -/
inductive Allows (x : Expr) : EvaluationError → Prop
  | arithmetic {e : EvaluationError} (h : e.IsArithmetic) : Allows x e
  | unknown (name : String) : Allows x (.unknownParameter name)
  | indefinite (h : x.HasIndefinite) : Allows x (.valueless .indefiniteIntegral)

variable {x y : Expr} {e : EvaluationError}

theorem HasIndefinite.of_child (h : y.HasIndefinite) (hy : y ∈ x.children) : x.HasIndefinite := by
  obtain ⟨lower, upper, integrand, name, ho, hb⟩ := h
  exact ⟨lower, upper, integrand, name, .inside hy ho, hb⟩

theorem Regular.of_child (h : x.Regular) (hy : y ∈ x.children) : y.Regular :=
  ⟨fun z f count hz => h.accepts z f count (.inside hy hz),
    fun z hz => h.unrelated z (.inside hy hz)⟩

theorem Allows.of_child (h : y.Allows e) (hy : y ∈ x.children) : x.Allows e := by
  cases h with
  | arithmetic h => exact .arithmetic h
  | unknown name => exact .unknown name
  | indefinite h => exact .indefinite (h.of_child hy)

section

variable {b : Binding} {options : Options} {bound : List String}

theorem Raises.allows (h : x.Raises b bound e) (hx : x.Regular) : x.Allows e := by
  have enough (f : Builtin) (args : List Expr) (hf : x.application? = some (f, args.length)) :
      f.minArgs ≤ args.length := by
    have := hx.accepts x f _ (.self x) hf
    simp only [Builtin.accepts, Bool.and_eq_true, decide_eq_true_eq] at this
    exact this.1
  cases h with
  | arithmetic _ he => exact .arithmetic he
  | unbound | called => exact .unknown _
  | apply _ hf | powered _ hf => exact absurd hf (Nat.not_lt.2 (enough _ _ rfl))
  | indefinite h => exact .indefinite ⟨_, _, _, _, .self _, h⟩
  | nested r left right => exact absurd ⟨r, left, right, rfl⟩ (hx.unrelated _ (.self _))

theorem EndsIn.allows (h : EndsIn b bound x e) (hx : x.Regular) : x.Allows e := by
  induction h with
  | here h => exact h.allows hx
  | inside hp _ ih =>
    have hpart := mem_children_of_scoped hp
    exact (ih (hx.of_child hpart)).of_child hpart

/-- A name is the only fault that is found before anything is computed. -/
theorem evaluate_allows {t : Expr} (h : t.Regular) (ht : x.target = .ok t) :
    FailsOnly t.Allows (x.evaluate b options) := by
  rw [evaluate_of_target ht]
  refine .bind ?_ fun _ => eval_endsIn.mono fun _ he => he.allows h
  intro e he
  obtain ⟨name, -, rfl⟩ := Binding.check_eq_error.1 he
  exact .unknown name

end

end Expr

namespace Formula

variable {declared : List String} {f : Formula} {x : Expr}

theorem accepts_of_toExpr {g : Builtin} {count : Nat} (h : f.toExpr = .ok x)
    (hx : x.application? = some (g, count)) : g.accepts count = true := by
  cases exprStep_of_toExpr h with
  | dagger =>
    obtain ⟨rfl, rfl⟩ := Prod.mk.inj (Option.some.inj hx)
    rfl
  | @root _ _ _ i =>
    obtain ⟨rfl, rfl⟩ := Prod.mk.inj (Option.some.inj hx)
    cases i <;> rfl
  | apply _ hc hp | known _ hc hp | powered hc _ hp =>
    obtain ⟨rfl, rfl⟩ := Prod.mk.inj (Option.some.inj hx)
    rw [length_of_listToExpr hp]
    exact hc
  | _ => cases hx

theorem Built.not_isRelation (hb : Built declared f) (h : f.toExpr = .ok x) : ¬x.IsRelation := by
  rintro ⟨r, left, right, rfl⟩
  cases exprStep_of_toExpr h with
  | relation => cases hb

theorem Built.regular (hb : Built declared f) (h : f.toExpr = .ok x) : x.Regular where
  accepts _ g count hy :=
    hb.forall_occurs (P := fun y => y.application? = some (g, count) → g.accepts count = true)
      (fun _ h => accepts_of_toExpr h) h hy
  unrelated _ hy := hb.forall_occurs (P := fun y => ¬y.IsRelation) Built.not_isRelation h hy

theorem BuiltMember.regular (hb : BuiltMember declared f) (h : f.toExpr = .ok x) :
    x.Regular ∨ ∃ r left right, x = .relation r left right ∧ left.Regular ∧ right.Regular := by
  cases hb with
  | expression hx => exact .inl (hx.regular h)
  | relation hl hr =>
    cases exprStep_of_toExpr h with
    | relation _ left right => exact .inr ⟨_, _, _, rfl, hl.regular left, hr.regular right⟩

end Formula

namespace Expr

variable {x : Expr} {b : Binding} {options : Options} {e : EvaluationError}

theorem Regular.target (h : x.Regular) : x.target = .ok x := by
  cases x with
  | relation r left right => exact absurd ⟨r, left, right, rfl⟩ (h.unrelated _ (.self _))
  | _ => rfl

theorem Allows.ne_noArguments (h : x.Allows e) (f : Builtin) : e ≠ .domain (.noArguments f) := by
  rintro rfl
  cases h with
  | arithmetic h => exact h

theorem Allows.of_valueless {v : Valueless} (h : x.Allows (.valueless v)) :
    v = .indefiniteIntegral ∧ x.HasIndefinite := by
  cases h with
  | arithmetic h => exact h.elim
  | indefinite h => exact ⟨rfl, h⟩

theorem evaluate_relation_fails {r : Relation} {left right : Expr} (h : right.Regular)
    (he : (relation r left right).evaluate b options = .error e) :
    (r = .equal ∧ right.Allows e) ∨ (r ≠ .equal ∧ e = .valueless (.relation r)) := by
  cases r with
  | equal => exact .inl ⟨rfl, evaluate_allows h rfl e he⟩
  | _ => exact .inr ⟨by simp, (Except.error.inj he).symm⟩

end Expr

/-- In a member that was read, functions are applied to as many arguments as they
take and no part is a relation. Of the constructs that have no value, an
evaluation meets a relation other than an equation, and that as the whole member,
or an integral without both bounds. No function is found to lack an argument. -/
theorem Answer.evaluate_valueless {declared : List String} {latex : String}
    {members : List Member} {m : Member} {x : Expr} (h : read declared latex = .ok members)
    (hm : m ∈ members) (hx : m.expr = .ok x) :
    (∀ (y : Expr) (f : Builtin) (count : Nat), y.Occurs x → y.application? = some (f, count) →
      f.accepts count = true) ∧
    (∀ part ∈ x.children, ∀ y : Expr, y.Occurs part → ¬y.IsRelation) ∧
    ∀ b options e, x.evaluate b options = .error e →
      (∀ f, e ≠ .domain (.noArguments f)) ∧
      ∀ v, e = .valueless v →
        (∃ r left right, x = .relation r left right ∧ r ≠ .equal ∧ v = .relation r) ∨
        (v = .indefiniteIntegral ∧ x.HasIndefinite) := by
  obtain ⟨f, hf, hfx⟩ := formula_of_read h hm hx
  rcases hf.regular hfx with hreg | ⟨r, left, right, rfl, hl, hr⟩
  · refine ⟨hreg.accepts, fun part hp y hy => hreg.unrelated y (.inside hp hy), ?_⟩
    intro b options e he
    have ha := Expr.evaluate_allows hreg hreg.target e he
    refine ⟨ha.ne_noArguments, ?_⟩
    rintro v rfl
    exact .inr ha.of_valueless
  · have sides : ∀ part ∈ [left, right], part.Regular := by simp [hl, hr]
    refine ⟨?_, fun part hp y hy => (sides part hp).unrelated y hy, ?_⟩
    · intro y f count hy hc
      cases hy with
      | self => cases hc
      | inside hp hy => exact (sides _ hp).accepts y f count hy hc
    · intro b options e he
      rcases Expr.evaluate_relation_fails hr he with ⟨rfl, ha⟩ | ⟨hne, rfl⟩
      · refine ⟨ha.ne_noArguments, ?_⟩
        rintro v rfl
        obtain ⟨hv, hi⟩ := ha.of_valueless
        exact .inr ⟨hv, hi.of_child (by simp [Expr.children])⟩
      · refine ⟨by simp, ?_⟩
        rintro v hv
        obtain rfl := EvaluationError.valueless.inj hv
        exact .inl ⟨r, left, right, rfl, hne, rfl⟩

def isIndefinite : Evaluated Value → Bool
  | .error (.valueless .indefiniteIntegral) => true
  | _ => false

theorem eq_of_isIndefinite {a : Evaluated Value} (h : isIndefinite a = true) :
    a = .error (.valueless .indefiniteIntegral) := by
  unfold isIndefinite at h
  split at h
  · rfl
  · cases h

theorem Answer.evaluate_maximum_and_integral :
    ∃ x, single? ["x", "y"] "\\max(x,y)+\\int zdz" = some x ∧
      x.evaluate ⟨[("x", 2), ("y", 3)]⟩ {} = .error (.valueless .indefiniteIntegral) ∧
      x.HasIndefinite := by
  have h : (single? ["x", "y"] "\\max(x,y)+\\int zdz").any
      (fun x => isIndefinite (x.evaluate ⟨[("x", 2), ("y", 3)]⟩ {})) = true := by decide +kernel
  obtain ⟨x, hx, hp⟩ := (Option.any_eq_true _ _).1 h
  obtain ⟨source, hread⟩ := single?_eq_some.1 hx
  have he := eq_of_isIndefinite hp
  obtain ⟨-, -, hfails⟩ := evaluate_valueless hread List.mem_cons_self rfl
  rcases (hfails _ _ _ he).2 _ rfl with ⟨r, left, right, -, -, hv⟩ | ⟨-, hi⟩
  · cases hv
  · exact ⟨x, hx, he, hi⟩

end AnswerKey

import AnswerKey.Proofs.Evaluation.Failures
import AnswerKey.Proofs.Evaluation.Strays
import AnswerKey.Proofs.Expr.Occurrence

/-! Where the error of an evaluation arises: in one part of the expression, below
the names bound around that part, from what the part itself does. -/
namespace AnswerKey

open Evaluation

namespace Expr

/-- The errors that an expression makes itself once its parts have values. -/
inductive Raises (b : Binding) (bound : List String) : Expr → EvaluationError → Prop
  | arithmetic (x : Expr) {e : EvaluationError} (he : e.IsArithmetic) : Raises b bound x e
  | unbound {name : String} (hbound : name ∉ bound) (hname : b.Unknown name) :
    Raises b bound (symbol name) (.unknownParameter name)
  | called (name : String) (args : List Expr) :
    Raises b bound (call name args) (.unknownParameter name)
  | apply {f : Builtin} {args : List Expr} {e : EvaluationError} (he : e.IsApplication)
    (hf : args.length < f.minArgs) : Raises b bound (apply f args) e
  | powered {f : Builtin} {exponent : Expr} {args : List Expr} {e : EvaluationError}
    (he : e.IsApplication) (hf : args.length < f.minArgs) :
    Raises b bound (powered f exponent args) e
  | indefinite {lower upper : Option Expr} {integrand : Expr} {name : String}
    (h : lower = none ∨ upper = none) :
    Raises b bound (integral lower upper integrand name) (.valueless .indefiniteIntegral)
  | nested (r : Relation) (left right : Expr) :
    Raises b bound (relation r left right) (.valueless .nestedRelation)

/-- An error of the expression itself or of a part at any depth. -/
inductive EndsIn (b : Binding) : List String → Expr → EvaluationError → Prop
  | here {bound : List String} {x : Expr} {e : EvaluationError} (h : x.Raises b bound e) :
    EndsIn b bound x e
  | inside {bound : List String} {x : Expr} {part : List String × Expr} {e : EvaluationError}
    (hp : part ∈ x.scopedChildren bound) (h : EndsIn b part.1 part.2 e) : EndsIn b bound x e

variable {b : Binding} {options : Options} {scopes : Scopes} {E : EvaluationError → Prop}

theorem evalAll_fails {xs : List Expr} (ih : ∀ x ∈ xs, FailsOnly E (x.eval b options scopes)) :
    FailsOnly E (evalAll b options scopes xs) := by
  induction xs with
  | nil => exact .ok _
  | cons x rest ihr =>
    exact (ih x List.mem_cons_self).bind fun _ =>
      (ihr fun y hy => ih y (List.mem_cons_of_mem x hy)).bind fun _ => .ok _

theorem length_of_evalAll {xs : List Expr} {vs : List Value}
    (h : evalAll b options scopes xs = .ok vs) : vs.length = xs.length := by
  induction xs generalizing vs with
  | nil =>
    obtain rfl := Except.ok.inj h
    rfl
  | cons x rest ih =>
    simp only [evalAll, bind_eq_ok, pure_eq_ok] at h
    obtain ⟨v, -, ws, hws, rfl⟩ := h
    simp [ih hws]

theorem applied_fails {f : Builtin} {args : List Expr}
    (harith : ∀ e, e.IsArithmetic → E e)
    (hshort : args.length < f.minArgs → ∀ e, e.IsApplication → E e)
    (ih : FailsOnly E (evalAll b options scopes args)) :
    FailsOnly E (do f.apply (← evalAll b options scopes args)) := by
  cases h : evalAll b options scopes args with
  | error e => exact .error (ih e h)
  | ok values =>
    by_cases hf : args.length < f.minArgs
    · exact (Builtin.apply_fails f values).mono (hshort hf)
    · rw [← length_of_evalAll h, Nat.not_lt] at hf
      exact (Builtin.apply_fails_of_enough hf).mono harith

theorem lookup_fails {name : String} : FailsOnly ((symbol name).Raises b (scopes.map (·.1)))
    (lookup b scopes name) := by
  unfold lookup
  split
  · exact .ok _
  · next hs =>
    split
    · exact .ok _
    · next hb =>
      split
      · exact .ok _
      · next hc =>
        refine .error (.unbound (fun hm => ?_) ⟨hb, hc⟩)
        obtain ⟨p, hp, hn⟩ := List.mem_map.1 hm
        exact bne_iff_ne.1 (List.lookup_eq_none_iff.1 hs p hp) hn.symm

theorem eval_endsIn {x : Expr} :
    FailsOnly (EndsIn b (scopes.map (·.1)) x) (x.eval b options scopes) := by
  induction x using Expr.induct_children generalizing scopes with
  | h x ih =>
    -- The bodies are evaluated below more scopes than the expression.
    have inner (y : Expr) (scopes' : Scopes)
        (hy : (scopes'.map (·.1), y) ∈ x.scopedChildren (scopes.map (·.1))) :
        FailsOnly (EndsIn b (scopes.map (·.1)) x) (y.eval b options scopes') :=
      (ih y (mem_children_of_scoped hy)).mono fun _ he => .inside hy he
    have arith {α : Type} {a : Evaluated α} (h : FailsOnly EvaluationError.IsArithmetic a) :
        FailsOnly (EndsIn b (scopes.map (·.1)) x) a := h.mono fun _ he => .here (.arithmetic x he)
    have both (l r : Expr) (hl : (scopes.map (·.1), l) ∈ x.scopedChildren (scopes.map (·.1)))
        (hr : (scopes.map (·.1), r) ∈ x.scopedChildren (scopes.map (·.1)))
        {f : Value → Value → Evaluated Value}
        (hf : ∀ v w, FailsOnly EvaluationError.IsArithmetic (f v w)) :
        FailsOnly (EndsIn b (scopes.map (·.1)) x)
          (do f (← l.eval b options scopes) (← r.eval b options scopes)) :=
      (inner l scopes hl).bind fun _ => (inner r scopes hr).bind fun _ => arith (hf _ _)
    cases x with
    | number x => exact .ok _
    | symbol name => exact lookup_fails.mono fun _ => .here
    | binary op l r =>
      exact both l r (by simp [scopedChildren, children]) (by simp [scopedChildren, children])
        (arithmetic_fails op)
    | negated y =>
      exact (inner y scopes (by simp [scopedChildren, children])).bind fun _ => .ok _
    | power l r =>
      exact both l r (by simp [scopedChildren, children]) (by simp [scopedChildren, children])
        Value.power_fails
    | group y => exact inner y scopes (by simp [scopedChildren, children])
    | fraction l r =>
      exact both l r (by simp [scopedChildren, children]) (by simp [scopedChildren, children])
        Value.divide_fails
    | binomial l r =>
      exact both l r (by simp [scopedChildren, children]) (by simp [scopedChildren, children])
        Value.binomial_fails
    | apply f args =>
      refine applied_fails (fun _ he => .here (.arithmetic _ he))
        (fun hf _ he => .here (.apply he hf)) (evalAll_fails fun y hy => ?_)
      exact inner y scopes (by simp [scopedChildren, children, hy])
    | call name args => exact .error (.here (.called name args))
    | powered f exponent args =>
      have applied : FailsOnly (EndsIn b (scopes.map (·.1)) (powered f exponent args))
          (do f.apply (← evalAll b options scopes args)) := by
        refine applied_fails (fun _ he => .here (.arithmetic _ he))
          (fun hf _ he => .here (.powered he hf)) (evalAll_fails fun y hy => ?_)
        exact inner y scopes (by simp [scopedChildren, children, hy])
      rw [eval, ← bind_assoc]
      exact applied.bind fun _ =>
        (inner exponent scopes (by simp [scopedChildren, children])).bind fun _ =>
          arith (Value.power_fails _ _)
    | factorial y =>
      exact (inner y scopes (by simp [scopedChildren, children])).bind fun _ =>
        arith (Value.factorial_fails _)
    | aggregate kind name lower upper body =>
      have body (v : Value) := inner body ((name, v) :: scopes) (by simp [scopedChildren])
      exact (inner lower scopes (by simp [scopedChildren])).bind fun _ =>
        (arith (integerBound_fails _)).bind fun _ =>
          (inner upper scopes (by simp [scopedChildren])).bind fun _ =>
            (arith (integerBound_fails _)).bind fun _ =>
              aggregate_fails (fun _ he => .here (.arithmetic _ he)) body
    | integral lower upper integrand name =>
      have body (v : Value) := inner integrand ((name, v) :: scopes) (by simp [scopedChildren])
      cases lower with
      | none => exact .error (.here (.indefinite (.inl rfl)))
      | some l =>
        cases upper with
        | none => exact .error (.here (.indefinite (.inr rfl)))
        | some u =>
          exact (inner l scopes (by simp [scopedChildren])).bind fun _ =>
            (arith (realAt_fails _ _)).bind fun _ =>
              (inner u scopes (by simp [scopedChildren])).bind fun _ =>
                (arith (realAt_fails _ _)).bind fun _ => (integral_fails body).bind fun _ =>
                  arith (finiteOr_fails .divergentIntegral trivial _)
    | limit name approach side body =>
      have body (v : Value) := inner body ((name, v) :: scopes) (by simp [scopedChildren])
      exact (inner approach scopes (by simp [scopedChildren])).bind fun _ =>
        (arith (realAt_fails _ _)).bind fun _ =>
          (limit_fails (fun _ he => .here (.arithmetic _ he)) body).bind fun _ =>
            arith (finiteOr_fails .divergentLimit trivial _)
    | relation r left right => exact .error (.here (.nested r left right))

end Expr

end AnswerKey

import AnswerKey.Proofs.Expr.Calls
import AnswerKey.Proofs.Expr.OfFormula

/-! The parts of an expression at any depth. What holds of every expression of a
formula holds of all parts of one. -/
namespace AnswerKey

namespace Expr

inductive Occurs : Expr → Expr → Prop
  | self (x : Expr) : Occurs x x
  | inside {x y z : Expr} (part : y ∈ z.children) (within : Occurs x y) : Occurs x z

theorem induct_children {motive : Expr → Prop}
    (h : ∀ x, (∀ y ∈ x.children, motive y) → motive x) (x : Expr) : motive x := by
  induction x using Expr.induct with
  | number | symbol => exact h _ (by simp [children])
  | binary _ _ _ hl hr | power _ _ hl hr | fraction _ _ hl hr | binomial _ _ hl hr
  | relation _ _ _ hl hr => exact h _ (by simp [children, hl, hr])
  | negated _ hx | group _ hx | factorial _ hx => exact h _ (by simp [children, hx])
  | apply _ _ ih | call _ _ ih => exact h _ ih
  | powered _ _ _ he ih => exact h _ (by simpa [children, he] using ih)
  | aggregate _ _ _ _ _ hl hu hb => exact h _ (by simp [children, hl, hu, hb])
  | integral _ _ _ _ hl hu hb =>
    refine h _ fun y hy => ?_
    simp only [children, List.mem_append, Option.mem_toList, List.mem_singleton] at hy
    rcases hy with hy | hy | rfl
    · exact hl y hy
    · exact hu y hy
    · exact hb
  | limit _ _ _ _ ha hb => exact h _ (by simp [children, ha, hb])

def collect {α : Type} (own : Expr → List α) (x : Expr) : List α :=
  own x ++ x.children.attach.flatMap fun y => y.1.collect own
termination_by sizeOf x
decreasing_by exact sizeOf_lt_of_mem_children y.2

theorem collect_eq {α : Type} (own : Expr → List α) (x : Expr) :
    x.collect own = own x ++ x.children.flatMap (collect own) := by
  rw [collect]
  simp [List.flatMap_subtype]

theorem mem_collect_of_child {α : Type} {own : Expr → List α} {a : α} {x y : Expr}
    (h : y ∈ x.children) (ha : a ∈ y.collect own) : a ∈ x.collect own := by
  rw [collect_eq]
  exact List.mem_append_right _ (List.mem_flatMap.2 ⟨y, h, ha⟩)

theorem mem_collect {α : Type} {own : Expr → List α} {a : α} {x y : Expr} (h : y.Occurs x)
    (ha : a ∈ own y) : a ∈ x.collect own := by
  induction h with
  | self => exact collect_eq own _ ▸ List.mem_append_left _ ha
  | inside part _ ih => exact mem_collect_of_child part ih

end Expr

namespace Formula

variable {declared : List String} {f : Formula} {x y : Expr} {B : Formula → Prop} {P : Expr → Prop}

theorem Hereditary.forall_occurs (hB : Hereditary B)
    (hP : ∀ {f x}, B f → f.toExpr = .ok x → P x) (hb : B f) (h : f.toExpr = .ok x)
    (hy : y.Occurs x) : P y := by
  induction hy generalizing f with
  | self => exact hP hb h
  | inside part _ ih =>
    obtain ⟨g, hg, hgy⟩ := (exprStep_of_toExpr h).exists_operand part
    exact ih (hB.of_mem_operands hb hg) hgy

theorem Built.forall_occurs (hP : ∀ {f x}, Built declared f → f.toExpr = .ok x → P x)
    (hb : Built declared f) (h : f.toExpr = .ok x) (hy : y.Occurs x) : P y :=
  Built.hereditary.forall_occurs hP hb h hy

end Formula

end AnswerKey

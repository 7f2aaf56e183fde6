import AnswerKey.Proofs.Expr.Mentions
import AnswerKey.Proofs.Expr.OfFormula

/-! The parts of an expression, each with the names that are bound around it. -/
namespace AnswerKey

namespace Expr

/-- The parts of an expression and the names bound around each. What an
expression binds is bound in its body only, and not in its limits. -/
def scopedChildren (bound : List String) : Expr → List (List String × Expr)
  | aggregate _ name lower upper body => [(bound, lower), (bound, upper), (name :: bound, body)]
  | integral lower upper integrand name =>
    (lower.toList ++ upper.toList).map (bound, ·) ++ [(name :: bound, integrand)]
  | limit name approach _ body => [(bound, approach), (name :: bound, body)]
  | x => x.children.map (bound, ·)

def ownMentions (bound : List String) : Expr → List Mention
  | symbol name => [⟨name, false, bound⟩]
  | call name _ => [⟨name, true, bound⟩]
  | _ => []

variable {m : Mention} {bound : List String} {x : Expr}

theorem map_scopedChildren : (x.scopedChildren bound).map (·.2) = x.children := by
  cases x <;> simp [scopedChildren, children, Function.comp_def]

theorem mem_children_of_scoped {part : List String × Expr} (h : part ∈ x.scopedChildren bound) :
    part.2 ∈ x.children :=
  map_scopedChildren ▸ List.mem_map_of_mem h

theorem mem_mentionsAll {xs : List Expr} :
    m ∈ mentionsAll bound xs ↔ ∃ x ∈ xs, m ∈ x.mentions bound := by
  induction xs with
  | nil => simp [mentionsAll]
  | cons x rest ih => simp [mentionsAll, ih]

theorem mem_mentions : m ∈ x.mentions bound ↔
    m ∈ x.ownMentions bound ∨ ∃ part ∈ x.scopedChildren bound, m ∈ part.2.mentions part.1 := by
  cases x with
  | integral lower upper integrand name =>
    cases lower <;> cases upper <;>
      simp [mentions, mentionsOption, ownMentions, scopedChildren]
  | _ => simp [mentions, ownMentions, scopedChildren, children, mem_mentionsAll]

end Expr

end AnswerKey

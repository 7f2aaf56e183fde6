import AnswerKey.Builtin
import AnswerKey.Double.Arithmetic

/-! Canonical expressions. Sums, products, integrals and limits bind a name in
their body. -/
namespace AnswerKey

inductive Expr where
  | number (x : Double)
  | symbol (name : String)
  | binary (op : Operation) (left right : Expr)
  | negated (x : Expr)
  | power (base exponent : Expr)
  | group (x : Expr)
  | fraction (numerator denominator : Expr)
  | binomial (top bottom : Expr)
  | apply (f : Builtin) (args : List Expr)
  | call (name : String) (args : List Expr)
  | powered (f : Builtin) (exponent : Expr) (args : List Expr)
  | factorial (x : Expr)
  | aggregate (kind : Aggregate) (name : String) (lower upper body : Expr)
  | integral (lower upper : Option Expr) (integrand : Expr) (name : String)
  | limit (name : String) (approach : Expr) (side : Option Side) (body : Expr)
  | relation (r : Relation) (left right : Expr)
  deriving Inhabited

end AnswerKey

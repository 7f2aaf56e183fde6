import AnswerKey.Expr
import AnswerKey.Decimal.Notation
import AnswerKey.Double.Arithmetic

/-! The canonical text of an expression. Compound operands get parentheses, so
that no rule of precedence is needed to read the text. -/
namespace AnswerKey

def Operation.sign : Operation → String
  | .add => " + "
  | .sub => " - "
  | .mul => "*"
  | .div => "/"

def Aggregate.name : Aggregate → String
  | .sum => "sum"
  | .product => "product"

namespace Expr

def isAtomic : Expr → Bool
  | number x => x ≥ 0
  | symbol _ | group _ | binomial _ _ | apply _ _ | call _ _ | aggregate _ _ _ _ _
  | integral _ _ _ _ | limit _ _ _ _ => true
  | _ => false

def parenthesized (x : Expr) (text : String) : String :=
  if x.isAtomic then text else "(" ++ text ++ ")"

def sideSuffix : Option Side → String
  | some .above => ", +"
  | some .below => ", -"
  | none => ""

mutual

def render : Expr → String
  | number x => Decimal.plain x
  | symbol name => name
  | binary op l r => parenthesized l (render l) ++ op.sign ++ parenthesized r (render r)
  | negated x => "-" ++ parenthesized x (render x)
  | power b e => parenthesized b (render b) ++ "^" ++ parenthesized e (render e)
  | group x => "(" ++ render x ++ ")"
  | fraction n d => parenthesized n (render n) ++ "/" ++ parenthesized d (render d)
  | binomial t b => "binomial(" ++ render t ++ ", " ++ render b ++ ")"
  | apply f args => f.name ++ "(" ++ renderList args ++ ")"
  | call name args => name ++ "(" ++ renderList args ++ ")"
  | powered f e args =>
    f.name ++ "(" ++ renderList args ++ ")^" ++ parenthesized e (render e)
  | factorial x => parenthesized x (render x) ++ "!"
  | aggregate kind name lower upper body =>
    kind.name ++ "(" ++ name ++ ", " ++ render lower ++ ", " ++ render upper ++ ", " ++
      render body ++ ")"
  | integral lower upper integrand name =>
    "integral(" ++ render integrand ++ ", " ++ name ++
      (if lower.isSome || upper.isSome then
        ", " ++ renderBound lower ++ ", " ++ renderBound upper
      else "") ++ ")"
  | limit name approach side body =>
    "limit(" ++ render body ++ ", " ++ name ++ ", " ++ render approach ++ sideSuffix side ++ ")"
  | relation r l x => render l ++ " " ++ r.sign ++ " " ++ render x

def renderList : List Expr → String
  | [] => ""
  | [x] => render x
  | x :: rest => render x ++ ", " ++ renderList rest

def renderBound : Option Expr → String
  | none => "none"
  | some x => render x

end

end Expr

end AnswerKey

import AnswerKey.Expr

/-! Free names of an expression, and the replacement of free names by numbers.
The names bound around an expression are listed with the innermost first. -/
namespace AnswerKey

def insertName (name : String) : List String → List String
  | [] => [name]
  | x :: rest =>
    if name < x then name :: x :: rest
    else if name = x then x :: rest
    else x :: insertName name rest

def unionNames (xs ys : List String) : List String := xs.foldr insertName ys

namespace Expr

mutual

/-- The names in an expression that nothing around them binds, as a set. -/
def freeNames (bound : List String) : Expr → List String
  | number _ => []
  | symbol name => if bound.contains name then [] else [name]
  | binary _ l r | relation _ l r | power l r | fraction l r | binomial l r =>
    unionNames (freeNames bound l) (freeNames bound r)
  | negated x | group x | factorial x => freeNames bound x
  | apply _ args => freeNamesAll bound args
  | call name args =>
    unionNames (if bound.contains name then [] else [name]) (freeNamesAll bound args)
  | powered _ exponent args =>
    unionNames (freeNames bound exponent) (freeNamesAll bound args)
  | aggregate _ name lower upper body =>
    unionNames (freeNames bound lower)
      (unionNames (freeNames bound upper) (freeNames (name :: bound) body))
  | integral lower upper integrand name =>
    unionNames (freeNamesOption bound lower)
      (unionNames (freeNamesOption bound upper) (freeNames (name :: bound) integrand))
  | limit name approach _ body =>
    unionNames (freeNames bound approach) (freeNames (name :: bound) body)

def freeNamesAll (bound : List String) : List Expr → List String
  | [] => []
  | x :: rest => unionNames (freeNames bound x) (freeNamesAll bound rest)

def freeNamesOption (bound : List String) : Option Expr → List String
  | none => []
  | some x => freeNames bound x

end

/-- The free names in ascending order, function names included. -/
def freeSymbols (x : Expr) : List String := freeNames [] x

mutual

def substituteUnder (value? : String → Option Double) (bound : List String) : Expr → Expr
  | number x => number x
  | symbol name =>
    if bound.contains name then symbol name
    else
      match value? name with
      | some x => number x
      | none => symbol name
  | binary op l r => binary op (substituteUnder value? bound l) (substituteUnder value? bound r)
  | negated x => negated (substituteUnder value? bound x)
  | power b e => power (substituteUnder value? bound b) (substituteUnder value? bound e)
  | group x => group (substituteUnder value? bound x)
  | fraction n d => fraction (substituteUnder value? bound n) (substituteUnder value? bound d)
  | binomial t b => binomial (substituteUnder value? bound t) (substituteUnder value? bound b)
  | apply f args => apply f (substituteAll value? bound args)
  | call name args => call name (substituteAll value? bound args)
  | powered f e args =>
    powered f (substituteUnder value? bound e) (substituteAll value? bound args)
  | factorial x => factorial (substituteUnder value? bound x)
  | aggregate kind name lower upper body =>
    aggregate kind name (substituteUnder value? bound lower) (substituteUnder value? bound upper)
      (substituteUnder value? (name :: bound) body)
  | integral lower upper integrand name =>
    integral (substituteOption value? bound lower) (substituteOption value? bound upper)
      (substituteUnder value? (name :: bound) integrand) name
  | limit name approach side body =>
    limit name (substituteUnder value? bound approach) side
      (substituteUnder value? (name :: bound) body)
  | relation r l x => relation r (substituteUnder value? bound l) (substituteUnder value? bound x)

def substituteAll (value? : String → Option Double) (bound : List String) :
    List Expr → List Expr
  | [] => []
  | x :: rest => substituteUnder value? bound x :: substituteAll value? bound rest

def substituteOption (value? : String → Option Double) (bound : List String) :
    Option Expr → Option Expr
  | none => none
  | some x => some (substituteUnder value? bound x)

end

def substitute (value? : String → Option Double) (x : Expr) : Expr :=
  substituteUnder value? [] x

end Expr

end AnswerKey

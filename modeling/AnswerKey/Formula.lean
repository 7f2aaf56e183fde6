import AnswerKey.Builtin

/-! Formulas as written: how neighbours were put side by side, where
differentials stand, and which arguments had brackets. -/
namespace AnswerKey

/-- The shape of two neighbouring factors that multiply without a sign. -/
inductive Adjacency where
  | numberOrSymbol | groups | functions | fraction | power
  | groupFunction | delimitedFunction | bareFunction | differential
  deriving DecidableEq, Repr

inductive Formula where
  | number (digits : String)
  | symbol (name : String)
  | infinity
  | binary (op : Operation) (left right : Formula)
  | juxtaposed (adjacency : Adjacency) (left right : Formula)
  | negated (x : Formula)
  | power (base exponent : Formula)
  | dagger (x : Formula)
  | group (x : Formula)
  | fraction (numerator denominator : Formula)
  | binomial (top bottom : Formula)
  | root (index : Option Formula) (radicand : Formula)
  | apply (f : Builtin) (args : List Formula) (delimited : Bool)
  | call (name : String) (args : List Formula)
  | powered (f : Builtin) (exponent : Formula) (args : List Formula)
  | factorial (x : Formula)
  | primed (x : Formula)
  | differential (name : Option String) (isPartial : Bool)
  | aggregate (kind : Aggregate) (name : String) (lower upper body : Formula)
  | integral (lower upper : Option Formula) (body : Formula)
  | limit (name : String) (approach : Formula) (side : Option Side) (body : Formula)
  | relation (r : Relation) (left right : Formula)

namespace Formula

/-- The factor that meets whatever follows the formula. -/
def lastFactor : Formula → Formula
  | binary .mul _ right | binary .div _ right | juxtaposed _ _ right => right.lastFactor
  | x => x

def isDifferential : Formula → Bool
  | differential _ _ => true
  | _ => false

def isDelimitedApplication : Formula → Bool
  | apply _ _ delimited => delimited
  | call _ _ | root _ _ => true
  | _ => false

def isApplication : Formula → Bool
  | apply _ _ _ | call _ _ | powered _ _ _ | root _ _ => true
  | _ => false

end Formula

end AnswerKey

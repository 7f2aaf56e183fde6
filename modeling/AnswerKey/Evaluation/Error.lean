import AnswerKey.Builtin
import AnswerKey.Value.Text

/-! Why an expression has no value. -/
namespace AnswerKey

inductive RealPlace where
  | integralBound | seriesBound | limitPoint
  deriving DecidableEq

def RealPlace.name : RealPlace → String
  | .integralBound => "integral bound"
  | .seriesBound => "series bound"
  | .limitPoint => "limit point"

inductive DomainError where
  | complexArgument (f : Builtin)
  | complexBinomial
  | logarithmOfZero
  | atanhPole
  | gammaPole
  | factorial
  | noArguments (f : Builtin)
  | notReal (place : RealPlace)
  | notInteger (bound : Double)
  | tooManyTerms (terms : Nat) (most : Nat)
  | divergentIntegral
  | divergentLimit
  | noSamples
  | sidesDiffer (below above : Value)

def DomainError.reason : DomainError → String
  | complexArgument f => f.name ++ " of a complex number"
  | complexBinomial => "binomial of a complex number"
  | logarithmOfZero => "logarithm of zero"
  | atanhPole => "atanh at a pole"
  | gammaPole => "gamma at a non-positive integer"
  | factorial => "factorial of a non-negative integer only"
  | noArguments f => f.name ++ " of nothing"
  | notReal place => place.name ++ " must be real"
  | notInteger bound => "series bound " ++ Decimal.plain bound ++ " is not an integer"
  | tooManyTerms terms most =>
    "series has " ++ toString terms ++ " terms, more than " ++ toString most
  | divergentIntegral => "integral does not converge"
  | divergentLimit => "limit does not converge"
  | noSamples => "limit without samples"
  | sidesDiffer below above =>
    "one-sided limits differ: " ++ below.text ++ " from below, " ++ above.text ++ " from above"

inductive Valueless where
  | relation (r : Relation)
  | withoutArguments (f : Builtin)
  | ofOneArgument (f : Builtin)
  | indefiniteIntegral
  | nestedRelation
  deriving DecidableEq

def Valueless.name : Valueless → String
  | relation r => "relation '" ++ r.sign ++ "'"
  | withoutArguments f => f.name ++ " without arguments"
  | ofOneArgument f => f.name ++ " of one argument"
  | indefiniteIntegral => "an indefinite integral"
  | nestedRelation => "a nested relation"

inductive EvaluationError where
  | unknownParameter (name : String)
  | divisionByZero
  | domain (e : DomainError)
  | valueless (v : Valueless)

def EvaluationError.message : EvaluationError → String
  | unknownParameter name => "unknown parameter '" ++ name ++ "'"
  | divisionByZero => "division by zero"
  | domain e => "domain error: " ++ e.reason
  | valueless v => "cannot evaluate " ++ v.name

abbrev Evaluated := Except EvaluationError

end AnswerKey

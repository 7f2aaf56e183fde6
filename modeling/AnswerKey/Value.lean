import AnswerKey.Complex

/-! Values: real numbers, and complex numbers where a real one will not do. -/
namespace AnswerKey

inductive Value where
  | real (x : Double)
  | complex (z : Complex)
  deriving Inhabited

namespace Value

def imaginaryUnit : Value := complex .I

/-- A complex number without an imaginary part counts as real. -/
def ofComplex (z : Complex) : Value := if z.im == 0 then real z.re else complex z

def toComplex : Value → Complex
  | real x => .ofReal x
  | complex z => z

def isReal : Value → Bool
  | real _ => true
  | complex _ => false

def magnitude : Value → Double
  | real x => x.abs
  | complex z => z.norm

def isFinite : Value → Bool
  | real x => x.isFinite
  | complex z => z.isFinite

/-- Whether two values differ by at most the tolerance, relative to the larger
of them where that is above one. -/
def approxEq (tolerance : Double) (a b : Value) : Bool :=
  (a.toComplex - b.toComplex).norm ≤
    tolerance * Double.larger (Double.larger a.magnitude b.magnitude) 1

end Value

end AnswerKey

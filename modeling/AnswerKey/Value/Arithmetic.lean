import AnswerKey.Evaluation.Error

/-! Arithmetic of values. Real operands stay real where the result is. -/
namespace AnswerKey.Value

/-- The integer that a double is meant to be: the one within `1e-9` of it. -/
def integer? (x : Double) : Option Int :=
  let rounded := x.round
  if (x - rounded).abs ≤ 1e-9 && rounded.abs < 9.0e15 then
    some rounded.wholePart
  else
    none

def add : Value → Value → Value
  | real x, real y => real (x + y)
  | a, b => ofComplex (a.toComplex + b.toComplex)

def subtract : Value → Value → Value
  | real x, real y => real (x - y)
  | a, b => ofComplex (a.toComplex - b.toComplex)

def multiply : Value → Value → Value
  | real x, real y => real (x * y)
  | a, b => ofComplex (a.toComplex * b.toComplex)

/-- The distance from one to the next double. Smaller divisors count as zero. -/
def leastDivisor : Double := 2.220446049250313e-16

def divide (a b : Value) : Evaluated Value :=
  if b.magnitude ≤ leastDivisor then
    .error .divisionByZero
  else
    match a, b with
    | real x, real y => .ok (real (x / y))
    | _, _ => .ok (ofComplex (a.toComplex / b.toComplex))

def negate : Value → Value
  | real x => real (-x)
  | complex z => complex (-z)

def reciprocal (a : Value) : Evaluated Value := divide (real 1) a

def hasFraction (x : Double) : Bool := x.isFinite && x.floor != x

/-- A fractional power of a negative number leaves the reals. -/
def power (base exponent : Value) : Evaluated Value :=
  match base, exponent with
  | real b, real e =>
    if b == 0 && e < 0 then
      .error .divisionByZero
    else if b < 0 && hasFraction e then
      .ok (ofComplex ((Complex.ofReal b).powReal e))
    else
      .ok (real (b.pow e))
  | _, _ =>
    let b := base.toComplex
    let e := exponent.toComplex
    if b.norm == 0 then
      if 0 < e.re then .ok (real 0) else .error .divisionByZero
    else
      .ok (ofComplex (b.pow e))

end AnswerKey.Value

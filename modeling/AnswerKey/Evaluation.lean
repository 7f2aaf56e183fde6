import AnswerKey.Binding
import AnswerKey.Evaluation.Extrapolation
import AnswerKey.Evaluation.Quadrature
import AnswerKey.Value.Apply

/-! The value of an expression under a binding. -/
namespace AnswerKey

namespace Evaluation

structure Options where
  quadraturePanels : Nat := 64
  limitSteps : Nat := 10
  maxSeriesTerms : Nat := 1000000
  deriving DecidableEq

abbrev Scopes := List (String × Value)

def constantValue : Constant → Value
  | .e => .real 2.718281828459045
  | .pi => .real Value.pi
  | .i => .imaginaryUnit

/-- A bound name hides a declared one, and a declared one a constant. -/
def lookup (binding : Binding) (scopes : Scopes) (name : String) : Evaluated Value :=
  match scopes.lookup name with
  | some v => .ok v
  | none =>
    match binding.get? name with
    | some x => .ok (.real x)
    | none =>
      match Constant.ofName? name with
      | some c => .ok (constantValue c)
      | none => .error (.unknownParameter name)

def arithmetic (op : Operation) (a b : Value) : Evaluated Value :=
  match op with
  | .add => .ok (a.add b)
  | .sub => .ok (a.subtract b)
  | .mul => .ok (a.multiply b)
  | .div => a.divide b

def realAt (place : RealPlace) (v : Value) : Evaluated Double :=
  match v with
  | .real x => if x.isNaN then .error (.domain (.notReal place)) else .ok x
  | .complex _ => .error (.domain (.notReal place))

def integerBound (v : Value) : Evaluated Int := do
  let x ← realAt .seriesBound v
  match Value.integer? x with
  | some n => return n
  | none => throw (.domain (.notInteger x))

def Aggregate.start : Aggregate → Value
  | .sum => .real 0
  | .product => .real 1

def Aggregate.join : Aggregate → Value → Value → Value
  | .sum => Value.add
  | .product => Value.multiply

def aggregateFrom (kind : Aggregate) (body : Value → Evaluated Value) (total : Value) (k : Int) :
    Nat → Evaluated Value
  | 0 => .ok total
  | count + 1 => do
    let term ← body (.real (Double.ofInt k))
    aggregateFrom kind body (Aggregate.join kind total term) (k + 1) count

/-- A sum or a product from `lower` to `upper`; empty if `upper` is less. -/
def aggregate (most : Nat) (kind : Aggregate) (lower upper : Int)
    (body : Value → Evaluated Value) : Evaluated Value :=
  let terms := (upper - lower + 1).toNat
  if most < terms then
    .error (.domain (.tooManyTerms terms most))
  else
    aggregateFrom kind body (Aggregate.start kind) lower terms

def boundsOf (a b : Double) : Bounds Double :=
  match a.isInf, b.isInf with
  | false, false => .between a b
  | false, true => .above a
  | true, false => .below b
  | true, true => .everywhere

def integral (panels : Nat) (a b : Double) (body : Value → Evaluated Value) : Evaluated Value :=
  let f (x : Double) : Evaluated Complex := (body (.real x)).map Value.toComplex
  if a == b then
    .ok (.real 0)
  else if b < a then
    (integralOver panels (boundsOf b a) f).map fun z => (Value.ofComplex z).negate
  else
    (integralOver panels (boundsOf a b) f).map Value.ofComplex

def finiteOr (e : DomainError) (v : Value) : Evaluated Value :=
  if v.isFinite then .ok v else .error (.domain e)

def signOf (x : Double) : Double := if x < 0 then -1 else 1

/-- The limit from one side; at infinity the side is that of its sign. -/
def oneSidedLimit (steps : Nat) (target side : Double) (body : Value → Evaluated Value) :
    Evaluated Value := do
  let approach : Approach Double :=
    if target.isInf then .far (signOf target) else .near target side
  match ← limitAlong steps approach fun x => (body (.real x)).map Value.toComplex with
  | some z => return .ofComplex z
  | none => throw (.domain .noSamples)

def agreement : Double := 1e-6

def limit (steps : Nat) (target : Double) (side : Option Side) (body : Value → Evaluated Value) :
    Evaluated Value :=
  if target.isInf then
    oneSidedLimit steps target (-signOf target) body
  else
    match side with
    | some .above => oneSidedLimit steps target 1 body
    | some .below => oneSidedLimit steps target (-1) body
    | none => do
      let above ← oneSidedLimit steps target 1 body
      let below ← oneSidedLimit steps target (-1) body
      if Value.approxEq agreement above below then return above
      else throw (.domain (.sidesDiffer below above))

end Evaluation

open Evaluation

namespace Expr

mutual

def eval (binding : Binding) (options : Options) (scopes : Scopes) : Expr → Evaluated Value
  | number x => .ok (.real x)
  | symbol name => lookup binding scopes name
  | binary op l r => do
    let a ← eval binding options scopes l
    let b ← eval binding options scopes r
    arithmetic op a b
  | negated x => do
    let a ← eval binding options scopes x
    return a.negate
  | power base exponent => do
    let b ← eval binding options scopes base
    let e ← eval binding options scopes exponent
    b.power e
  | group x => eval binding options scopes x
  | fraction numerator denominator => do
    let a ← eval binding options scopes numerator
    let b ← eval binding options scopes denominator
    a.divide b
  | binomial top bottom => do
    let a ← eval binding options scopes top
    let b ← eval binding options scopes bottom
    a.binomial b
  | apply f args => do
    let values ← evalAll binding options scopes args
    f.apply values
  | call name _ => .error (.unknownParameter name)
  | powered f exponent args => do
    let values ← evalAll binding options scopes args
    let a ← f.apply values
    let e ← eval binding options scopes exponent
    a.power e
  | factorial x => do
    let a ← eval binding options scopes x
    a.factorial
  | aggregate kind name lower upper body => do
    let first ← integerBound (← eval binding options scopes lower)
    let last ← integerBound (← eval binding options scopes upper)
    Evaluation.aggregate options.maxSeriesTerms kind first last
      fun v => eval binding options ((name, v) :: scopes) body
  | integral (some lower) (some upper) integrand name => do
    let a ← realAt .integralBound (← eval binding options scopes lower)
    let b ← realAt .integralBound (← eval binding options scopes upper)
    let v ← Evaluation.integral options.quadraturePanels a b
      fun v => eval binding options ((name, v) :: scopes) integrand
    finiteOr .divergentIntegral v
  | integral _ _ _ _ => .error (.valueless .indefiniteIntegral)
  | limit name approach side body => do
    let target ← realAt .limitPoint (← eval binding options scopes approach)
    let v ← Evaluation.limit options.limitSteps target side
      fun v => eval binding options ((name, v) :: scopes) body
    finiteOr .divergentLimit v
  | relation _ _ _ => .error (.valueless .nestedRelation)

def evalAll (binding : Binding) (options : Options) (scopes : Scopes) :
    List Expr → Evaluated (List Value)
  | [] => .ok []
  | x :: rest => do
    let v ← eval binding options scopes x
    let vs ← evalAll binding options scopes rest
    return v :: vs

end

/-- What is evaluated of a member: of an equation, the right side. -/
def target : Expr → Evaluated Expr
  | relation .equal _ right => .ok right
  | relation r _ _ => .error (.valueless (.relation r))
  | x => .ok x

/-- The value of a member of an answer. Free names are checked before anything
is computed. -/
def evaluate (binding : Binding) (options : Options) (x : Expr) : Evaluated Value := do
  let x ← x.target
  binding.check x
  x.eval binding options []

end Expr

end AnswerKey

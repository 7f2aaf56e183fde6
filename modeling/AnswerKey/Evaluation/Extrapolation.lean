/-! Limits from samples at halving distances, by Richardson extrapolation over
any arithmetic. -/
namespace AnswerKey.Evaluation

section Extrapolation

variable {R V ε : Type} [Add R] [Sub R] [Mul R] [Div R] [Neg R] [OfScientific R]
  [LT R] [DecidableLT R] [Add V] [Sub V] [HDiv V R V]

/-- Goes on with a row of the triangle: each entry cancels one more power of the
step from its left neighbour and the entry above that one. The factor is the
ratio of the steps to that power. -/
def refineRow (factor : R) (left : V) : List V → List V
  | [] => []
  | above :: rest =>
    let entry := left + (left - above) / (factor - 1.0)
    entry :: refineRow (factor + factor) entry rest

def nextRow (ratio : R) (previous : List V) (sample : V) : List V :=
  sample :: refineRow ratio sample previous

def initialStep : R := 0.1

/-- The row after further samples, each taken at half the step before it. The
first of them is at `1 / division` of the initial step. -/
def rowsFrom (sample : R → Except ε V) (previous : List V) (division : R) :
    Nat → Except ε (List V)
  | 0 => .ok previous
  | more + 1 => do
    let value ← sample (initialStep / division)
    rowsFrom sample (nextRow (2.0 : R) previous value) (division + division) more

def extrapolate (steps : Nat) (sample : R → Except ε V) : Except ε (Option V) :=
  (rowsFrom sample [] 1.0 steps).map List.getLast?

def scaleOf (target : R) : R :=
  let magnitude := if target < 0.0 then -target else target
  if 1.0 < magnitude then magnitude else 1.0

def pointNear (target side step : R) : R := target + side * step * scaleOf target

def pointFar (sign step : R) : R := sign / step

/-- What an argument goes to: a number, from the side of a sign, or infinity of a
sign. -/
inductive Approach (R : Type) where
  | near (target side : R)
  | far (sign : R)

def Approach.point (approach : Approach R) (step : R) : R :=
  match approach with
  | .near target side => pointNear target side step
  | .far sign => pointFar sign step

/-- The limit of `f` along an approach, from at least one sample. -/
def limitAlong (steps : Nat) (approach : Approach R) (f : R → Except ε V) : Except ε (Option V) :=
  extrapolate (max 1 steps) fun step => f (approach.point step)

end Extrapolation

end AnswerKey.Evaluation

import AnswerKey.Double.Arithmetic

/-! The length of a vector of two doubles. -/
namespace AnswerKey.Double

/-- Newton's steps down to the integer square root of `n`, from a start that is
not below it. -/
def sqrtStep (n : Nat) : Nat → Nat → Nat
  | 0, x => x
  | fuel + 1, x =>
    let y := (x + n / x) / 2
    if y < x then sqrtStep n fuel y else x

def integerSqrt (n : Nat) : Nat := sqrtStep n (n.log2 + 2) (Nat.pow 2 (n.log2 / 2 + 1))

/-- The double nearest to `sqrt n * 2 ^ exponent`. One more bit than the integer
root says whether the root is exact, which is all that rounding needs. -/
def nearestSqrt (n : Nat) (exponent : Int) : Double :=
  let shift : Nat := 64
  let m := n * Nat.pow 4 shift
  let r := integerSqrt m
  let wide := 2 * r + (if r * r = m then 0 else 1)
  let (num, den) := fractionOf wide (exponent - (shift : Int) - 1)
  nearest false num den

/-- The double nearest to the root of the sum of two squares. An infinite
component outweighs one that is no number. -/
def hypot (x y : Double) : Double :=
  match x.shape, y.shape with
  | .infinite _, _ | _, .infinite _ => infinity false
  | .nan _, _ => x
  | _, .nan _ => y
  | .finite _ m e, .finite _ n f =>
    let low := min e f
    let a := m * Nat.pow 2 (e - low).toNat
    let b := n * Nat.pow 2 (f - low).toNat
    if b = 0 then x.abs
    else if a = 0 then y.abs
    else nearestSqrt (a * a + b * b) low

end AnswerKey.Double

import AnswerKey.Value.Arithmetic

/-! Roots, logarithms and inverse functions. A real argument outside the real
domain gives a complex value. -/
namespace AnswerKey.Value

def pi : Double := 3.141592653589793

def halfPi : Double := 1.5707963267948966

def lnTen : Double := 2.302585092994046

def lift (ofReal : Double → Double) (ofComplex : Complex → Complex) : Value → Value
  | real x => real (ofReal x)
  | complex z => Value.ofComplex (ofComplex z)

def ln : Value → Evaluated Value
  | real x =>
    if 0 < x then .ok (real x.log)
    else if x < 0 then .ok (complex ⟨(-x).log, pi⟩)
    else .error (.domain .logarithmOfZero)
  | complex z => if 0 < z.norm then .ok (ofComplex z.ln) else .error (.domain .logarithmOfZero)

def sqrt : Value → Value
  | real x => if 0 ≤ x then real x.sqrt else complex ⟨0, (-x).sqrt⟩
  | complex z => ofComplex z.sqrt

def asin : Value → Value
  | real x =>
    if x.abs ≤ 1 then
      real x.asin
    else
      let y := (x.abs + (x * x - 1).sqrt).log
      if 1 < x then complex ⟨halfPi, -y⟩ else complex ⟨-halfPi, y⟩
  | complex z => ofComplex z.asin

def acos : Value → Value
  | real x => if x.abs ≤ 1 then real x.acos else subtract (real halfPi) (asin (real x))
  | complex z => ofComplex z.acos

def acot : Value → Value
  | real x => if x == 0 then real halfPi else real (1 / x).atan
  | complex z => ofComplex z.inv.atan

def asinh : Value → Value := lift Double.asinh Complex.asinh

def acosh : Value → Value
  | real x =>
    if 1 ≤ x then real x.acosh
    else if -1 ≤ x then complex ⟨0, x.acos⟩
    else complex ⟨(-x + (x * x - 1).sqrt).log, pi⟩
  | complex z => ofComplex z.acosh

/-- The logarithm of `1 + x` for `x` between `-1` and `0`. The quotient makes up
for what the sum lost of `x`. -/
def logOnePlus (x : Double) : Double :=
  let u := 1 + x
  u.log + (x - (u - 1)) / u

/-- The inverse hyperbolic tangent between `-1` and `1`. Below zero the quotient is
rounded before its logarithm is taken, which shows close to `-1`. -/
def realAtanh (x : Double) : Double :=
  if 0 ≤ x then x.atanh else 0.5 * logOnePlus (2 * x / (1 - x))

def atanh : Value → Evaluated Value
  | real x =>
    if x.abs < 1 then
      .ok (real (realAtanh x))
    else if x.abs == 1 then
      .error (.domain .atanhPole)
    else
      let ratio := Complex.ofReal ((1 + x) / (1 - x))
      .ok (ofComplex (ratio.ln * (0.5 : Double)))
  | complex z => .ok (ofComplex z.atanh)

def lg (a : Value) : Evaluated Value :=
  let viaLn : Evaluated Value := do divide (← ln a) (real lnTen)
  match a with
  | real x => if 0 < x then .ok (real x.log10) else viaLn
  | complex _ => viaLn

end AnswerKey.Value

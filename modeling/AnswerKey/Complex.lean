import AnswerKey.Double.Hypot

/-! Complex numbers over doubles. Every rule is spelled out on the components,
since signed zeros and infinities make algebraically equal rules differ. -/
namespace AnswerKey

structure Complex where
  re : Double
  im : Double
  deriving Inhabited

namespace Complex

def ofReal (x : Double) : Complex := ⟨x, 0⟩

def one : Complex := ⟨1, 0⟩

def I : Complex := ⟨0, 1⟩

instance : OfNat Complex 0 := ⟨⟨0, 0⟩⟩

instance : Neg Complex := ⟨fun z => ⟨-z.re, -z.im⟩⟩

instance : Add Complex := ⟨fun z w => ⟨z.re + w.re, z.im + w.im⟩⟩

instance : Sub Complex := ⟨fun z w => ⟨z.re - w.re, z.im - w.im⟩⟩

instance : Mul Complex :=
  ⟨fun z w => ⟨z.re * w.re - z.im * w.im, z.re * w.im + z.im * w.re⟩⟩

instance : Div Complex where
  div z w :=
    let n := w.re * w.re + w.im * w.im
    ⟨(z.re * w.re + z.im * w.im) / n, (z.im * w.re - z.re * w.im) / n⟩

/-! A real operand acts on each component. -/

instance : HMul Complex Double Complex := ⟨fun z r => ⟨z.re * r, z.im * r⟩⟩

instance : HMul Double Complex Complex := ⟨fun r z => ⟨r * z.re, r * z.im⟩⟩

instance : HDiv Complex Double Complex := ⟨fun z r => ⟨z.re / r, z.im / r⟩⟩

instance : HAdd Complex Double Complex := ⟨fun z r => ⟨z.re + r, z.im⟩⟩

instance : HSub Complex Double Complex := ⟨fun z r => ⟨z.re - r, z.im⟩⟩

instance : HSub Double Complex Complex := ⟨fun r z => ⟨r - z.re, 0 - z.im⟩⟩

instance : HDiv Double Complex Complex where
  hDiv r z :=
    let n := z.re * z.re + z.im * z.im
    ⟨r * z.re / n, 0 - r * z.im / n⟩

def conj (z : Complex) : Complex := ⟨z.re, -z.im⟩

def inv (z : Complex) : Complex :=
  let n := z.re * z.re + z.im * z.im
  ⟨z.re / n, -z.im / n⟩

def norm (z : Complex) : Double := Double.hypot z.re z.im

def arg (z : Complex) : Double := Double.atan2 z.im z.re

def isFinite (z : Complex) : Bool := z.re.isFinite && z.im.isFinite

def ofPolar (radius angle : Double) : Complex := ⟨radius * angle.cos, radius * angle.sin⟩

def ln (z : Complex) : Complex := ⟨z.norm.log, z.arg⟩

def exp (z : Complex) : Complex :=
  if z.re.isInf && z.re < 0 && !z.im.isFinite then
    0
  else if z.re.isInf && 0 < z.re && (z.im == 0 || !z.im.isFinite) then
    ⟨z.re, if z.im.isInf then .nan false else z.im⟩
  else if z.re.isNaN && z.im == 0 then
    z
  else
    ofPolar z.re.exp z.im

def sqrt (z : Complex) : Complex :=
  if z.im == 0 then
    if !z.re.isNegative then
      ⟨z.re.sqrt, z.im⟩
    else
      let y := (-z.re).sqrt
      ⟨0, if z.im.isNegative then -y else y⟩
  else if z.re == 0 then
    let x := (z.im.abs / 2).sqrt
    ⟨x, if z.im.isNegative then -x else x⟩
  else
    ofPolar z.norm.sqrt (z.arg / 2)

def powReal (z : Complex) (e : Double) : Complex :=
  if e == 0 then one else ofPolar (z.norm.pow e) (z.arg * e)

def pow (z w : Complex) : Complex :=
  if w.re == 0 && w.im == 0 then one else (w * z.ln).exp

def sin (z : Complex) : Complex := ⟨z.re.sin * z.im.cosh, z.re.cos * z.im.sinh⟩

def cos (z : Complex) : Complex := ⟨z.re.cos * z.im.cosh, -z.re.sin * z.im.sinh⟩

def tan (z : Complex) : Complex :=
  let a := z.re + z.re
  let b := z.im + z.im
  (⟨a.sin, b.sinh⟩ : Complex) / (a.cos + b.cosh)

def sinh (z : Complex) : Complex := ⟨z.re.sinh * z.im.cos, z.re.cosh * z.im.sin⟩

def cosh (z : Complex) : Complex := ⟨z.re.cosh * z.im.cos, z.re.sinh * z.im.sin⟩

def tanh (z : Complex) : Complex :=
  let a := z.re + z.re
  let b := z.im + z.im
  (⟨a.sinh, b.sin⟩ : Complex) / (a.cosh + b.cos)

def two : Complex := one + one

def asin (z : Complex) : Complex := -I * ((one - z * z).sqrt + I * z).ln

def acos (z : Complex) : Complex := -I * (I * (one - z * z).sqrt + z).ln

def atan (z : Complex) : Complex :=
  if z.re == 0 && z.im == 1 then
    ⟨0, Double.infinity false⟩
  else if z.re == 0 && z.im == -1 then
    ⟨0, Double.infinity true⟩
  else
    ((one + I * z).ln - (one - I * z).ln) / (two * I)

def asinh (z : Complex) : Complex := (z + (one + z * z).sqrt).ln

def acosh (z : Complex) : Complex :=
  two * (((z + one) / two).sqrt + ((z - one) / two).sqrt).ln

def atanh (z : Complex) : Complex :=
  if z.re == 1 && z.im == 0 then
    ⟨Double.infinity false, 0⟩
  else if z.re == -1 && z.im == 0 then
    ⟨Double.infinity true, 0⟩
  else
    ((one + z).ln - (one - z).ln) / two

end Complex

end AnswerKey

import AnswerKey.Double

/-! Operations on doubles. An operand that is no number is the result itself, the
first one of two. Numbers without a result give the one with a minus sign. -/
namespace AnswerKey.Double

instance : Inhabited Double := ⟨number 0⟩

instance (n : Nat) : OfNat Double n := ⟨number (.ofNat n)⟩

instance : OfScientific Double :=
  ⟨fun digits isNegated exponent => number (OfScientific.ofScientific digits isNegated exponent)⟩

def ofNat (n : Nat) : Double := number (.ofNat n)

def ofInt (n : Int) : Double := number (.ofInt n)

@[inline] def ofResult (x : Float) : Double := if x.isNaN then nan true else number x

@[inline] def map (f : Float → Float) : Double → Double
  | nan negative => nan negative
  | number x => ofResult (f x)

@[inline] def zip (f : Float → Float → Float) : Double → Double → Double
  | nan negative, _ => nan negative
  | number _, nan negative => nan negative
  | number x, number y => ofResult (f x y)

instance : Add Double := ⟨zip (· + ·)⟩

instance : Sub Double := ⟨zip (· - ·)⟩

instance : Mul Double := ⟨zip (· * ·)⟩

instance : Div Double := ⟨zip (· / ·)⟩

instance : Neg Double where
  neg
    | nan negative => nan !negative
    | number x => number (-x)

def abs : Double → Double
  | nan _ => nan false
  | number x => number x.abs

/-! Comparisons, none of which holds of what is no number. -/

def toFloat : Double → Float
  | nan _ => 0 / 0
  | number x => x

instance : LT Double := ⟨fun x y => x.toFloat < y.toFloat⟩

instance : LE Double := ⟨fun x y => x.toFloat ≤ y.toFloat⟩

instance (x y : Double) : Decidable (x < y) := inferInstanceAs (Decidable (x.toFloat < y.toFloat))

instance (x y : Double) : Decidable (x ≤ y) := inferInstanceAs (Decidable (x.toFloat ≤ y.toFloat))

instance : BEq Double := ⟨fun x y => x.toFloat == y.toFloat⟩

def isNaN (x : Double) : Bool := x.toFloat.isNaN

def isInf (x : Double) : Bool := x.toFloat.isInf

def isFinite (x : Double) : Bool := x.toFloat.isFinite

def wholePart (x : Double) : Int := x.toFloat.toInt64.toInt

/-- The larger of two doubles, of which one may be no number. -/
def larger (x y : Double) : Double :=
  if x.isNaN then y else if y.isNaN then x else if x < y then y else x

def smaller (x y : Double) : Double :=
  if x.isNaN then y else if y.isNaN then x else if y < x then y else x

/-! Functions. -/

def floor : Double → Double := map Float.floor
def ceil : Double → Double := map Float.ceil
def round : Double → Double := map Float.round
def sqrt : Double → Double := map Float.sqrt
def exp : Double → Double := map Float.exp
def log : Double → Double := map Float.log
def log10 : Double → Double := map Float.log10
def sin : Double → Double := map Float.sin
def cos : Double → Double := map Float.cos
def tan : Double → Double := map Float.tan
def sinh : Double → Double := map Float.sinh
def cosh : Double → Double := map Float.cosh
def tanh : Double → Double := map Float.tanh
def asin : Double → Double := map Float.asin
def acos : Double → Double := map Float.acos
def atan : Double → Double := map Float.atan
def asinh : Double → Double := map Float.asinh
def acosh : Double → Double := map Float.acosh
def atanh : Double → Double := map Float.atanh

def atan2 (y x : Double) : Double := zip (fun x y => .atan2 y x) x y

/-- A power. That of one, and that to the exponent zero, is one in any case. -/
def pow (x y : Double) : Double := if x == 1 || y == 0 then 1 else zip Float.pow x y

end AnswerKey.Double

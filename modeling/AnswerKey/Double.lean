/-! Doubles, seen as a sign, a mantissa and a power of two, and the double
nearest to a fraction. -/
namespace AnswerKey

/-- A double. What is no number comes with either sign, which a `Float` does not
show; every other double is a `Float`. -/
inductive Double where
  | nan (negative : Bool)
  | number (x : Float)

namespace Double

/-- The kinds of doubles. A finite one has the magnitude
`mantissa * 2 ^ exponent`, where the exponent is that of its last bit. -/
inductive Shape where
  | nan (negative : Bool)
  | infinite (negative : Bool)
  | finite (negative : Bool) (mantissa : Nat) (exponent : Int)
  deriving DecidableEq, Repr

def fractionBits : Nat := 52

def leastExponent : Int := -1074

def shapeOfBits (bits : Nat) : Shape :=
  let negative := bits ≥ Nat.pow 2 63
  let field := bits / Nat.pow 2 fractionBits % Nat.pow 2 11
  let fraction := bits % Nat.pow 2 fractionBits
  if field = 2047 then
    if fraction = 0 then .infinite negative else .nan negative
  else if field = 0 then
    .finite negative fraction leastExponent
  else
    .finite negative (Nat.pow 2 fractionBits + fraction) (leastExponent + (field - 1 : Nat))

def shape : Double → Shape
  | nan negative => .nan negative
  | number x => shapeOfBits x.toBits.toNat

def isNegative (x : Double) : Bool :=
  match x.shape with
  | .nan negative | .infinite negative | .finite negative _ _ => negative

inductive Tie where
  | up | even
  deriving DecidableEq

def roundQuotient (tie : Tie) (num den : Nat) : Nat :=
  let q := num / den
  let twice := 2 * (num % den)
  if twice < den then q
  else if den < twice then q + 1
  else
    match tie with
    | .up => q + 1
    | .even => if q % 2 = 0 then q else q + 1

def infinity (negative : Bool) : Double :=
  let sign := if negative then Nat.pow 2 63 else 0
  number (.ofBits (UInt64.ofNat (sign + 2047 * Nat.pow 2 fractionBits)))

/-- The double of a sign and of a magnitude `mantissa * 2 ^ exponent` that is
representable, or an infinity when the magnitude is past the largest double. -/
def encode (negative : Bool) (mantissa : Nat) (exponent : Int) : Double :=
  let magnitude := (exponent - leastExponent).toNat * Nat.pow 2 fractionBits + mantissa
  if 2047 * Nat.pow 2 fractionBits ≤ magnitude then
    infinity negative
  else
    number (.ofBits (UInt64.ofNat ((if negative then Nat.pow 2 63 else 0) + magnitude)))

def scaled (num den : Nat) (exponent : Int) : Nat × Nat :=
  if 0 ≤ exponent then (num, den * Nat.pow 2 exponent.toNat)
  else (num * Nat.pow 2 (-exponent).toNat, den)

/-- The exponent of the last bit of the double nearest to a positive fraction:
the quotient has 53 bits unless the double is one of the smallest. -/
def exponentOf (num den : Nat) : Int :=
  let guess : Int := (num.log2 : Int) - den.log2 - fractionBits
  let (n, d) := scaled num den guess
  max leastExponent (if n / d < Nat.pow 2 fractionBits then guess - 1 else guess)

def nearest (negative : Bool) (num den : Nat) : Double :=
  if num = 0 then
    encode negative 0 leastExponent
  else
    let exponent := exponentOf num den
    let (n, d) := scaled num den exponent
    encode negative (roundQuotient .even n d) exponent

def fractionOf (mantissa : Nat) (exponent : Int) : Nat × Nat :=
  if 0 ≤ exponent then (mantissa * Nat.pow 2 exponent.toNat, 1)
  else (mantissa, Nat.pow 2 (-exponent).toNat)

end Double

end AnswerKey

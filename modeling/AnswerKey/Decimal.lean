import AnswerKey.Double

/-! Decimal numbers, and the digits that stand for a double. -/
namespace AnswerKey

/-- The number `digits * 10 ^ exponent`. -/
structure Decimal where
  digits : Nat
  exponent : Int
  deriving DecidableEq, Repr

namespace Decimal

def digitChars (n : Nat) : List Char := Nat.toDigits 10 n

def width (n : Nat) : Nat := (digitChars n).length

def leading (d : Decimal) : Int := d.exponent + width d.digits - 1

def scaledTen (num den : Nat) (exponent : Int) : Nat × Nat :=
  if 0 ≤ exponent then (num, den * Nat.pow 10 exponent.toNat)
  else (num * Nat.pow 10 (-exponent).toNat, den)

def leadingOf (num den : Nat) : Int :=
  let guess : Int := (width num : Int) - width den
  let (n, d) := scaledTen num den guess
  if n < d then guess - 1 else guess

/-- A positive fraction rounded to a count of digits, a tie to the even digit. -/
def rounded (count : Nat) (num den : Nat) : Decimal :=
  let exponent := leadingOf num den - (count : Int) + 1
  let (n, d) := scaledTen num den exponent
  let q := Double.roundQuotient .even n d
  if q = Nat.pow 10 count then ⟨Nat.pow 10 (count - 1), exponent + 1⟩ else ⟨q, exponent⟩

def stripZeros : Nat → Decimal → Decimal
  | 0, d => d
  | fuel + 1, d =>
    if d.digits ≠ 0 ∧ d.digits % 10 = 0 then stripZeros fuel ⟨d.digits / 10, d.exponent + 1⟩ else d

def normal (d : Decimal) : Decimal := stripZeros (width d.digits) d

/-- The fractions that round to a double: those between `low / den` and
`high / den`, with the ends when the mantissa is even. The double itself is
`value / den`. -/
structure Interval where
  low : Nat
  value : Nat
  high : Nat
  den : Nat
  closed : Bool

/-- Below a power of two the doubles lie twice as close. -/
def intervalOf (mantissa : Nat) (exponent : Int) : Interval :=
  let (num, den) := Double.fractionOf mantissa exponent
  let unit := num / mantissa
  let below :=
    if mantissa = Nat.pow 2 Double.fractionBits ∧ exponent ≠ Double.leastExponent then unit
    else 2 * unit
  ⟨4 * num - below, 4 * num, 4 * num + 2 * unit, 4 * den, mantissa % 2 = 0⟩

def Interval.contains (i : Interval) (d : Decimal) : Bool :=
  let (n, e) :=
    if 0 ≤ d.exponent then (d.digits * Nat.pow 10 d.exponent.toNat * i.den, 1)
    else (d.digits * i.den, Nat.pow 10 (-d.exponent).toNat)
  if i.closed then i.low * e ≤ n && n ≤ i.high * e else i.low * e < n && n < i.high * e

/-- Of the two neighbours of a double on a decimal grid, the nearer one that
reads back as the double. -/
def neighbour? (tie : Double.Tie) (i : Interval) (exponent : Int) : Option Decimal :=
  let (n, d) := scaledTen i.value i.den exponent
  let below : Decimal := ⟨n / d, exponent⟩
  let above : Decimal := ⟨n / d + 1, exponent⟩
  let nearer : Decimal := ⟨Double.roundQuotient tie n d, exponent⟩
  match i.contains below, i.contains above with
  | true, true => some nearer
  | true, false => some below
  | false, true => some above
  | false, false => none

def firstHit (tie : Double.Tie) (i : Interval) : Nat → Int → Option Decimal
  | 0, _ => none
  | steps + 1, exponent =>
    (neighbour? tie i exponent).orElse fun _ => firstHit tie i steps (exponent - 1)

/-- The fewest digits that read back as a positive double, and of those the
nearest. Seventeen digits always read back. -/
def shortest (tie : Double.Tie) (mantissa : Nat) (exponent : Int) : Decimal :=
  let i := intervalOf mantissa exponent
  let first := leadingOf i.value i.den
  ((firstHit tie i 18 first).getD (rounded 17 i.value i.den)).normal

end Decimal

end AnswerKey

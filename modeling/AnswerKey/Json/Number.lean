import AnswerKey.Decimal.Notation
import AnswerKey.Decimal.Numeral
import AnswerKey.Double.Arithmetic
import AnswerKey.Json

/-! Numbers of JSON documents. A double is read in the fast way that most
documents are written for: a significand of 64 bits, scaled by a power of ten. -/
namespace AnswerKey.Json

def largestSignificand : Nat := Nat.pow 2 64 - 1

/-- A significand with the count of digits before and after the point that it
does not hold. -/
structure Significand where
  value : Nat
  dropped : Int

/-- Takes digits before the point. Once one does not fit, it and those after it
only count for the magnitude. -/
def takeWhole (s : Nat) : List Char → Significand
  | [] => ⟨s, 0⟩
  | c :: rest =>
    let next := 10 * s + Decimal.digitValue c
    if next ≤ largestSignificand then takeWhole next rest else ⟨s, (c :: rest).length⟩

def takePlaces (s : Significand) : List Char → Significand
  | [] => s
  | c :: rest =>
    let next := 10 * s.value + Decimal.digitValue c
    if next ≤ largestSignificand then takePlaces ⟨next, s.dropped - 1⟩ rest else s

def largestPower : Nat := 308

def powerOfTen (n : Nat) : Double := Decimal.toDouble false ⟨1, n⟩

def scaleDown (x : Double) (n : Nat) : Double :=
  if n ≤ largestPower then x / powerOfTen n
  else if x == 0 then x
  else scaleDown (x / powerOfTen largestPower) (n - largestPower)
termination_by n
decreasing_by simp only [largestPower] at *; omega

/-- Scales by a power of ten; fails when that leaves the finite numbers. -/
def scale? (x : Double) (exponent : Int) : Option Double :=
  if exponent < 0 then
    some (scaleDown x (-exponent).toNat)
  else if exponent ≤ largestPower then
    let y := x * powerOfTen exponent.toNat
    if y.isInf then none else some y
  else if x == 0 then
    some x
  else
    none

def largestExponent : Nat := Nat.pow 2 31 - 1

structure Parts where
  negative : Bool
  whole : List Char
  places : List Char
  exponent : Int

def isWholeEnd (c : Char) : Bool := c != '.' && c != 'e' && c != 'E'

def isPlacesEnd (c : Char) : Bool := c != 'e' && c != 'E'

def partsOf (lexeme : List Char) : Parts :=
  let (negative, body) := Decimal.sign lexeme
  let whole := body.takeWhile isWholeEnd
  let rest := body.dropWhile isWholeEnd
  let places := (rest.takeWhile isPlacesEnd).drop 1
  ⟨negative, whole, places, (Decimal.exponent? (rest.dropWhile isPlacesEnd)).getD 0⟩

def double? (lexeme : String) : Option Double :=
  let p := partsOf lexeme.toList
  let s := takePlaces (takeWhole 0 p.whole) p.places
  let x :=
    if largestExponent < p.exponent.natAbs then
      if s.value ≠ 0 ∧ 0 < p.exponent then none else some 0
    else
      scale? (Double.ofNat s.value) (s.dropped + p.exponent)
  x.map fun x => if p.negative then -x else x

/-- The natural number below `2 ^ 64` that a number is written as, without a
sign, a point or an exponent. -/
def natural? (lexeme : String) : Option Nat :=
  let cs := lexeme.toList
  if cs.all Char.isDigit then
    let n := Decimal.natOfDigits cs
    if n ≤ largestSignificand then some n else none
  else
    none

/-- A double as a document; infinities and no numbers become null. -/
def ofDouble (x : Double) : Json :=
  match Decimal.json? x with
  | some lexeme => number lexeme
  | none => null

def ofNatural (n : Nat) : Json := number (String.ofList (Decimal.digitChars n))

end AnswerKey.Json

import AnswerKey.Decimal

/-! Reading doubles from decimal text, correctly rounded. -/
namespace AnswerKey.Decimal

def digitValue (c : Char) : Nat := c.toNat - '0'.toNat

def natOfDigits (ds : List Char) : Nat := ds.foldl (fun n c => 10 * n + digitValue c) 0

/-- The double nearest to a decimal. Decimals far outside the range of doubles
are not multiplied out. -/
def toDouble (negative : Bool) (d : Decimal) : Double :=
  if d.digits = 0 then
    Double.encode negative 0 Double.leastExponent
  else if 400 < d.leading then
    Double.infinity negative
  else if d.leading < -400 then
    Double.encode negative 0 Double.leastExponent
  else if 0 ≤ d.exponent then
    Double.nearest negative (d.digits * Nat.pow 10 d.exponent.toNat) 1
  else
    Double.nearest negative d.digits (Nat.pow 10 (-d.exponent).toNat)

def mantissa? (cs : List Char) : Option (List Char × List Char × List Char) :=
  let whole := cs.takeWhile Char.isDigit
  match cs.dropWhile Char.isDigit with
  | '.' :: rest =>
    let places := rest.takeWhile Char.isDigit
    if whole = [] ∧ places = [] then none else some (whole, places, rest.dropWhile Char.isDigit)
  | rest => if whole = [] then none else some (whole, [], rest)

/-- Splits off a sign; true stands for a minus. -/
def sign (cs : List Char) : Bool × List Char :=
  match cs with
  | '-' :: rest => (true, rest)
  | '+' :: rest => (false, rest)
  | _ => (false, cs)

def exponent? : List Char → Option Int
  | [] => some 0
  | c :: cs =>
    if c = 'e' ∨ c = 'E' then
      let (negative, ds) := sign cs
      if ds ≠ [] ∧ ds.all Char.isDigit then
        some (if negative then -(natOfDigits ds : Int) else natOfDigits ds)
      else
        none
    else
      none

def unsigned? (cs : List Char) : Option Decimal := do
  let (whole, places, rest) ← mantissa? cs
  let exponent ← exponent? rest
  return ⟨natOfDigits (whole ++ places), exponent - places.length⟩

def infinityWords : List (List Char) := ["inf".toList, "infinity".toList]

/-- Reads a double: an optional sign, then a decimal number or one of the words
for infinity and for no number, in any case. -/
def read? (cs : List Char) : Option Double :=
  let (negative, body) := sign cs
  match unsigned? body with
  | some d => some (toDouble negative d)
  | none =>
    let word := body.map Char.toLower
    if infinityWords.contains word then
      some (Double.infinity negative)
    else if word = "nan".toList then
      some (Double.nan negative)
    else
      none

end AnswerKey.Decimal

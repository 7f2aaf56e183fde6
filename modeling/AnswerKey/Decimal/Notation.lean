import AnswerKey.Decimal

/-! How doubles are written: positionally, with a fixed count of digits, and as
a number of a JSON text. -/
namespace AnswerKey.Decimal

def zeros (n : Nat) : List Char := List.replicate n '0'

def positional (d : Decimal) : List Char :=
  let ds := digitChars d.digits
  if 0 ≤ d.exponent then
    ds ++ zeros d.exponent.toNat
  else
    let places := (-d.exponent).toNat
    if places < ds.length then
      ds.take (ds.length - places) ++ '.' :: ds.drop (ds.length - places)
    else
      '0' :: '.' :: zeros (places - ds.length) ++ ds

def exponential (d : Decimal) (plus : String) : List Char :=
  let ds := digitChars d.digits
  let mantissa := match ds with
    | [] => []
    | [c] => [c]
    | c :: rest => c :: '.' :: rest
  let e := d.leading
  mantissa ++ 'e' :: (if e < 0 then "-" else plus).toList ++ digitChars e.natAbs

def signed (negative : Bool) (text : List Char) : String :=
  String.ofList (if negative then '-' :: text else text)

/-- The text of a double that is a given or a drawn value: the fewest digits,
never with an exponent. -/
def plain (x : Double) : String :=
  match x.shape with
  | .nan _ => "NaN"
  | .infinite negative => signed negative "inf".toList
  | .finite negative mantissa exponent =>
    signed negative
      (if mantissa = 0 then ['0'] else positional (shortest .up mantissa exponent))

def ofDouble? (count : Nat) (x : Double) : Option Decimal :=
  match x.shape with
  | .finite _ mantissa exponent =>
    if mantissa = 0 then none
    else
      let (num, den) := Double.fractionOf mantissa exponent
      some (rounded count num den)
  | _ => none

/-- The text of a computed double, with a fixed count of digits. -/
def scientific (count : Nat) (x : Double) : String :=
  match x.shape, ofDouble? count x with
  | .finite negative _ _, some d => signed negative (exponential d "")
  | .finite _ _ _, none => "0"
  | _, _ => plain x

def isPositionalInJson (leading : Int) : Bool := -5 ≤ leading && leading ≤ 15

/-- The JSON number of a finite double; `none` for the others. A positional
number always has a point. -/
def json? (x : Double) : Option String :=
  match x.shape with
  | .finite negative mantissa exponent =>
    if mantissa = 0 then
      some (signed negative "0.0".toList)
    else
      let d := shortest .even mantissa exponent
      if isPositionalInJson d.leading then
        let text := positional d
        some (signed negative (if 0 ≤ d.exponent then text ++ ['.', '0'] else text))
      else
        some (signed negative (exponential d "+"))
  | _ => none

end AnswerKey.Decimal

import AnswerKey.Value
import AnswerKey.Text
import AnswerKey.Decimal.Notation
import AnswerKey.Decimal.Numeral

/-! Values as text: a plain number, or `(a+bj)` for a complex one. -/
namespace AnswerKey.Value

def text : Value → String
  | real x => Decimal.plain x
  | complex z =>
    "(" ++ Decimal.plain z.re ++ (if z.im.isNegative then "-" else "+") ++
      Decimal.plain z.im.abs ++ "j)"

def isSign (c : Char) : Bool := c = '+' || c = '-'

def isExponentMark (c : Char) : Bool := c = 'e' || c = 'E'

/-- Cuts a text before its last sign that does not belong to an exponent. -/
def cutAtSign (previous : Char) : List Char → Option (List Char × List Char)
  | [] => none
  | c :: rest =>
    match cutAtSign c rest with
    | some (before, after) => some (c :: before, after)
    | none => if isSign c && !isExponentMark previous then some ([], c :: rest) else none

def components : List Char → List Char × List Char
  | [] => (['0'], [])
  | c :: rest =>
    match cutAtSign c rest with
    | some (before, after) => (c :: before, after)
    | none => (['0'], c :: rest)

/-- A bare sign before the unit stands for one. -/
def unitCoefficient : List Char → List Char
  | [] => ['1']
  | ['+'] => ['1']
  | ['-'] => ['-', '1']
  | cs => cs

def readComplex? (body : List Char) : Option Value := do
  let (re, im) := components body
  let x ← Decimal.read? (Text.trim re)
  let y ← Decimal.read? (Text.trim (unitCoefficient im))
  return complex ⟨x, y⟩

def stripLast? (c : Char) (cs : List Char) : Option (List Char) :=
  if cs.getLast? = some c then some cs.dropLast else none

def readUnbracketed? (cs : List Char) : Option Value :=
  match stripLast? 'j' cs with
  | some body => readComplex? body
  | none => (Decimal.read? cs).map real

def readChars? (cs : List Char) : Option Value :=
  match Text.trim cs with
  | '(' :: rest => (stripLast? ')' rest).bind fun inner => readUnbracketed? (Text.trim inner)
  | trimmed => readUnbracketed? trimmed

structure FormatError where
  text : String
  deriving DecidableEq

def FormatError.message (e : FormatError) : String :=
  "cannot parse '" ++ e.text ++ "' as a complex number"

def ofText (s : String) : Except FormatError Value :=
  match readChars? s.toList with
  | some v => .ok v
  | none => .error ⟨s⟩

end AnswerKey.Value

import AnswerKey.Json

/-! Reading JSON documents strictly: nothing may follow the document, and
numbers, texts and separators have their exact form. -/
namespace AnswerKey.Json

def isSpace (c : Char) : Bool := c = ' ' || c = '\t' || c = '\n' || c = '\r'

def skipSpace (cs : List Char) : List Char := cs.dropWhile isSpace

/-! ### Texts -/

inductive Piece where
  | char (c : Char)
  | unit (n : Nat)

def hexValue? (c : Char) : Option Nat :=
  if c.isDigit then some (c.toNat - '0'.toNat)
  else if 'a' ≤ c ∧ c ≤ 'f' then some (c.toNat - 'a'.toNat + 10)
  else if 'A' ≤ c ∧ c ≤ 'F' then some (c.toNat - 'A'.toNat + 10)
  else none

def fourHex? (a b c d : Char) : Option Nat := do
  return (((← hexValue? a) * 16 + (← hexValue? b)) * 16 + (← hexValue? c)) * 16 + (← hexValue? d)

def simpleEscapes : List (Char × Char) :=
  [('"', '"'), ('\\', '\\'), ('/', '/'), ('b', '\x08'), ('f', '\x0c'), ('n', '\n'),
   ('r', '\r'), ('t', '\t')]

def pieces? : List Char → Option (List Piece × List Char)
  | [] => none
  | '"' :: rest => some ([], rest)
  | '\\' :: 'u' :: a :: b :: c :: d :: rest => do
    let n ← fourHex? a b c d
    let (ps, after) ← pieces? rest
    return (.unit n :: ps, after)
  | '\\' :: c :: rest => do
    let e ← simpleEscapes.lookup c
    let (ps, after) ← pieces? rest
    return (.char e :: ps, after)
  | c :: rest =>
    if c.toNat < 0x20 then none
    else do
      let (ps, after) ← pieces? rest
      return (.char c :: ps, after)

def isHighUnit (n : Nat) : Bool := 0xD800 ≤ n && n < 0xDC00

def isLowUnit (n : Nat) : Bool := 0xDC00 ≤ n && n < 0xE000

/-- Joins the halves of surrogate pairs; fails on a half that stands alone. -/
def decode? : List Piece → Option (List Char)
  | [] => some []
  | .char c :: rest => (decode? rest).map (c :: ·)
  | .unit n :: .unit m :: rest =>
    if isHighUnit n then
      if isLowUnit m then
        (decode? rest).map (Char.ofNat (0x10000 + (n - 0xD800) * 0x400 + (m - 0xDC00)) :: ·)
      else
        none
    else if isLowUnit n then
      none
    else
      (decode? (.unit m :: rest)).map (Char.ofNat n :: ·)
  | .unit n :: rest =>
    if isHighUnit n || isLowUnit n then none else (decode? rest).map (Char.ofNat n :: ·)

def quotedText? (cs : List Char) : Option (Option String × List Char) := do
  let (ps, rest) ← pieces? cs
  return ((decode? ps).map String.ofList, rest)

/-! ### Numbers -/

def digits? (cs : List Char) : Option (List Char × List Char) :=
  let ds := cs.takeWhile Char.isDigit
  if ds = [] then none else some (ds, cs.dropWhile Char.isDigit)

/-- The digits before the point; a zero stands alone. -/
def whole? (cs : List Char) : Option (List Char × List Char) := do
  let (ds, rest) ← digits? cs
  if ds.head? = some '0' ∧ ds.length ≠ 1 then none else return (ds, rest)

def places? (cs : List Char) : Option (List Char × List Char) :=
  match cs with
  | '.' :: rest => do
    let (ds, rest) ← digits? rest
    return ('.' :: ds, rest)
  | _ => some ([], cs)

def signChars (cs : List Char) : List Char × List Char :=
  match cs with
  | '-' :: rest => (['-'], rest)
  | '+' :: rest => (['+'], rest)
  | _ => ([], cs)

def power? (cs : List Char) : Option (List Char × List Char) :=
  match cs with
  | c :: rest =>
    if c = 'e' ∨ c = 'E' then do
      let (sign, rest) := signChars rest
      let (ds, rest) ← digits? rest
      return (c :: sign ++ ds, rest)
    else
      some ([], cs)
  | [] => some ([], cs)

def lexeme? (cs : List Char) : Option (List Char × List Char) := do
  let (sign, rest) := match cs with
    | '-' :: rest => (['-'], rest)
    | _ => ([], cs)
  let (whole, rest) ← whole? rest
  let (places, rest) ← places? rest
  let (power, rest) ← power? rest
  return (sign ++ whole ++ places ++ power, rest)

/-! ### Documents -/

def word? (word : List Char) (value : Json) (cs : List Char) : Option (Json × List Char) :=
  if word.isPrefixOf cs then some (value, cs.drop word.length) else none

mutual

/-- Reads a document whose depth is below the fuel. -/
def value? : Nat → List Char → Option (Json × List Char)
  | 0, _ => none
  | fuel + 1, cs =>
    match skipSpace cs with
    | 'n' :: rest => word? "null".toList null ('n' :: rest)
    | 't' :: rest => word? "true".toList (bool true) ('t' :: rest)
    | 'f' :: rest => word? "false".toList (bool false) ('f' :: rest)
    | '"' :: rest => do
      let (s, rest) ← quotedText? rest
      return (string s, rest)
    | '[' :: rest =>
      match skipSpace rest with
      | ']' :: rest => some (array [], rest)
      | rest => do
        let (xs, rest) ← items? fuel rest
        return (array xs, rest)
    | '{' :: rest =>
      match skipSpace rest with
      | '}' :: rest => some (object [], rest)
      | rest => do
        let (es, rest) ← entries? fuel rest
        return (object es, rest)
    | rest => do
      let (cs, rest) ← lexeme? rest
      return (number (String.ofList cs), rest)

def items? : Nat → List Char → Option (List Json × List Char)
  | 0, _ => none
  | fuel + 1, cs => do
    let (x, rest) ← value? fuel cs
    match skipSpace rest with
    | ',' :: rest => do
      let (xs, rest) ← items? fuel rest
      return (x :: xs, rest)
    | ']' :: rest => return ([x], rest)
    | _ => none

def entries? : Nat → List Char → Option (List (Option String × Json) × List Char)
  | 0, _ => none
  | fuel + 1, cs =>
    match skipSpace cs with
    | '"' :: rest => do
      let (key, rest) ← quotedText? rest
      match skipSpace rest with
      | ':' :: rest => do
        let (x, rest) ← value? fuel rest
        match skipSpace rest with
        | ',' :: rest => do
          let (es, rest) ← entries? fuel rest
          return ((key, x) :: es, rest)
        | '}' :: rest => return ([(key, x)], rest)
        | _ => none
      | _ => none
    | _ => none

end

/-- The document that a text writes. A document never needs more fuel than it
has characters. -/
def read? (s : String) : Option Json := do
  let cs := s.toList
  let (j, rest) ← value? (cs.length + 1) cs
  if skipSpace rest = [] then return j else none

end AnswerKey.Json

import AnswerKey.Formula.Grammar.Adjacency
import AnswerKey.Formula.Grammar.Name

/-! Brackets, operands, roots, bars and applications. -/
namespace AnswerKey.Grammar

variable (g : Rules)

def bracketed (d : Delimiter) (c : Cursor) : Attempt (Formula × Cursor) := do
  let (x, after) ← g.sum .plain c
  return (x, ← after.expect (.closing d) (.closing d))

def group (d : Delimiter) (c : Cursor) : Attempt (Formula × Cursor) := do
  let (x, after) ← bracketed g d c.next
  return (.group x, after)

def symbolOrCall (c : Cursor) : Attempt (Formula × Cursor) := do
  let (name, after) ← symbolName c
  if after.kind = some (.opening .round) && callable g.declared name then
    let (args, last) ← g.arguments .round after.next
    return (.call name args, last)
  else
    return (.symbol name, after)

/-- The operand of a fraction, a binomial, a root or a script: a braced
expression, one digit, or, where allowed, one symbol. -/
def operand (allowSymbol : Bool) (c : Cursor) : Attempt (Formula × Cursor) :=
  match c.kind with
  | some (.opening .curly) => bracketed g .curly c.next
  | some .number =>
    match c.takeDigit? with
    | some (digit, after) => .ok (.number digit, after)
    | none => refuse c .digitOrBrace
  | some .symbol => if allowSymbol then .ok (.symbol c.text, c.next) else refuse c .brace
  | some .infinity => if allowSymbol then .ok (.infinity, c.next) else refuse c .brace
  | _ => refuse c .brace

def isMinusOne : Formula → Bool
  | .negated (.number digits) => digits == "1"
  | _ => false

def logBase (f : Builtin) (c : Cursor) : Attempt (Option Formula × Cursor) :=
  if f = .log && c.kind = some .underscore then do
    let (base, after) ← operand g true c.next
    return (some base, after)
  else
    .ok (none, c)

/-- A function with the exponent written on it. An exponent `-1` takes the
inverse function, where there is one. -/
def functionExponent (f : Builtin) (c : Cursor) : Attempt ((Builtin × Option Formula) × Cursor) :=
  if c.kind = some .caret then do
    let (e, after) ← g.exponent c.next
    match e with
    | .value x =>
      match f.inverse? with
      | some inverse =>
        if isMinusOne x then return ((inverse, none), after) else return ((f, some x), after)
      | none => return ((f, some x), after)
    | _ => refuse after .functionExponent
  else
    .ok ((f, none), c)

def functionArguments (f : Builtin) (mode : Mode) (c : Cursor) :
    Attempt ((List Formula × Bool) × Cursor) :=
  if f = .innerProduct then do
    let (bra, c) ← operand g true c
    let (ket, c) ← operand g true c
    return (([bra, ket], true), c)
  else
    let delimited (d : Delimiter) : Attempt ((List Formula × Bool) × Cursor) := do
      let (args, after) ← g.arguments d c.next
      return ((args, true), after)
    match c.kind with
    | some (.opening .round) => delimited .round
    | some (.opening .square) => delimited .square
    | some (.opening .curly) => delimited .curly
    | _ =>
      if f.takesBareArgument then do
        let (x, after) ←
          g.signedTerm { bareArgument := true, insideBars := mode.insideBars } c
        return (([x], false), after)
      else
        refuse c .parenthesis

/-- An application; the cursor stands after the function word. -/
def application (f : Builtin) (mode : Mode) (c : Cursor) : Attempt (Formula × Cursor) := do
  let (base, c) ← logBase g f c
  let ((f, power), c) ← functionExponent g f c
  let ((args, delimited), c) ← functionArguments g f mode c
  let args := args ++ base.toList
  match power with
  | some x => return (.powered f x args, c)
  | none => return (.apply f args delimited, c)

def root (c : Cursor) : Attempt (Formula × Cursor) :=
  if c.kind = some (.opening .square) then do
    let (index, c) ← bracketed g .square c.next
    let (x, c) ← operand g true c
    return (.root (some index) x, c)
  else do
    let (x, c) ← operand g true c
    return (.root none x, c)

def fraction (c : Cursor) : Attempt (Formula × Cursor) := do
  let (top, c) ← operand g false c
  let (bottom, c) ← operand g true c
  return (.fraction top bottom, c)

def binomial (c : Cursor) : Attempt (Formula × Cursor) := do
  let (top, c) ← operand g false c
  let (bottom, c) ← operand g true c
  return (.binomial top bottom, c)

def bars (c : Cursor) : Attempt (Formula × Cursor) := do
  let (x, c) ← g.sum .bars c
  match c.kind with
  | some .pipe => return (.apply .abs [x] true, c.next)
  | some (.closing .angle) => return (.apply .ket [x] true, c.next)
  | _ => refuse c .pipe

def angle (c : Cursor) : Attempt (Formula × Cursor) := do
  let (bra, c) ← g.sum .bars c
  let c ← c.expect .pipe .pipe
  if startsFactor .bars c then
    let (ket, c) ← g.sum .bars c
    let c ← c.expect (.closing .angle) (.closing .angle)
    return (.apply .innerProduct [bra, ket] true, c)
  else
    return (.apply .bra [bra] true, c)

end AnswerKey.Grammar

import AnswerKey.Formula.Grammar

/-! The functions of the grammar, each with the calls that it makes answered from
outside. Over the answers that the functions themselves give, they are the functions
of the grammar again; over other answers they tell which calls are made. -/
namespace AnswerKey.Grammar

/-- The functions that call one another. Those that read names, differentials and
sides call none of them. -/
inductive Rule where
  | member | sum | sumTail | signedTerm | term | termTail | signedFactor | factor | factorTail
  | exponent | atom | bracketed | group | symbolOrCall | arguments | operand
  | logBase | functionExponent | functionArguments | application
  | root | fraction | binomial | bars | angle
  | indexBinding | aggregateBound | aggregate | integralLimit | integralBound | integralBody
  | integral | limit
  deriving DecidableEq, Repr

namespace Rule

abbrev Argument : Rule → Type
  | sum | signedTerm | term | signedFactor | factor | atom | integralBody | integral | limit => Mode
  | sumTail | termTail | factorTail => Mode × Formula
  | bracketed | group | arguments => Delimiter
  | operand => Bool
  | logBase | functionExponent => Builtin
  | functionArguments | application => Builtin × Mode
  | aggregateBound => Option (String × Formula) × Option Formula
  | aggregate => Aggregate × Mode
  | integralBound => Option Formula × Option Formula
  | _ => Unit

abbrev Value : Rule → Type
  | exponent => Exponent
  | arguments => List Formula
  | logBase => Option Formula
  | functionExponent => Builtin × Option Formula
  | functionArguments => List Formula × Bool
  | indexBinding => String × Formula
  | aggregateBound => Option (String × Formula) × Option Formula
  | integralBound => Option Formula × Option Formula
  | _ => Formula

end Rule

structure Call where
  rule : Rule
  argument : rule.Argument
  cursor : Cursor

abbrev Answers := (r : Rule) → r.Argument → Cursor → Attempt (r.Value × Cursor)

def Rules.answers (g : Rules) : Answers
  | .member => fun _ => member g
  | .sum => g.sum
  | .sumTail => fun (mode, left) => g.sumTail mode left
  | .signedTerm => g.signedTerm
  | .term => term g
  | .termTail => fun (mode, left) => g.termTail mode left
  | .signedFactor => g.signedFactor
  | .factor => factor g
  | .factorTail => fun (mode, base) => g.factorTail mode base
  | .exponent => fun _ => g.exponent
  | .atom => atom g
  | .bracketed => bracketed g
  | .group => group g
  | .symbolOrCall => fun _ => symbolOrCall g
  | .arguments => g.arguments
  | .operand => operand g
  | .logBase => logBase g
  | .functionExponent => functionExponent g
  | .functionArguments => fun (f, mode) => functionArguments g f mode
  | .application => fun (f, mode) => application g f mode
  | .root => fun _ => root g
  | .fraction => fun _ => fraction g
  | .binomial => fun _ => binomial g
  | .bars => fun _ => bars g
  | .angle => fun _ => angle g
  | .indexBinding => fun _ => indexBinding g
  | .aggregateBound => aggregateBound g
  | .aggregate => fun (kind, mode) => aggregate g kind mode
  | .integralLimit => fun _ => integralLimit g
  | .integralBound => integralBound g
  | .integralBody => integralBody g
  | .integral => integral g
  | .limit => limit g

namespace Answers

variable (declared : List String) (k : Answers)

def rules : Rules where
  declared := declared
  sum := k .sum
  sumTail mode left := k .sumTail (mode, left)
  signedTerm := k .signedTerm
  termTail mode left := k .termTail (mode, left)
  signedFactor := k .signedFactor
  factorTail mode base := k .factorTail (mode, base)
  exponent := k .exponent ()
  arguments := k .arguments

theorem declared_rules : (k.rules declared).declared = declared := rfl

/-! Functions that call others than the rules of the record, with these calls
answered as well. -/

def group (d : Delimiter) (c : Cursor) : Attempt (Formula × Cursor) := do
  let (x, after) ← k .bracketed d c.next
  return (.group x, after)

def operand (allowSymbol : Bool) (c : Cursor) : Attempt (Formula × Cursor) :=
  match c.kind with
  | some (.opening .curly) => k .bracketed .curly c.next
  | some .number =>
    match c.takeDigit? with
    | some (digit, after) => .ok (.number digit, after)
    | none => refuse c .digitOrBrace
  | some .symbol => if allowSymbol then .ok (.symbol c.text, c.next) else refuse c .brace
  | some .infinity => if allowSymbol then .ok (.infinity, c.next) else refuse c .brace
  | _ => refuse c .brace

def logBase (f : Builtin) (c : Cursor) : Attempt (Option Formula × Cursor) :=
  if f = .log && c.kind = some .underscore then do
    let (base, after) ← k .operand true c.next
    return (some base, after)
  else
    .ok (none, c)

def functionArguments (f : Builtin) (mode : Mode) (c : Cursor) :
    Attempt ((List Formula × Bool) × Cursor) :=
  if f = .innerProduct then do
    let (bra, c) ← k .operand true c
    let (ket, c) ← k .operand true c
    return (([bra, ket], true), c)
  else
    let delimited (d : Delimiter) : Attempt ((List Formula × Bool) × Cursor) := do
      let (args, after) ← k .arguments d c.next
      return ((args, true), after)
    match c.kind with
    | some (.opening .round) => delimited .round
    | some (.opening .square) => delimited .square
    | some (.opening .curly) => delimited .curly
    | _ =>
      if f.takesBareArgument then do
        let (x, after) ←
          k .signedTerm { bareArgument := true, insideBars := mode.insideBars } c
        return (([x], false), after)
      else
        refuse c .parenthesis

def application (f : Builtin) (mode : Mode) (c : Cursor) : Attempt (Formula × Cursor) := do
  let (base, c) ← k .logBase f c
  let ((f, power), c) ← k .functionExponent f c
  let ((args, delimited), c) ← k .functionArguments (f, mode) c
  let args := args ++ base.toList
  match power with
  | some x => return (.powered f x args, c)
  | none => return (.apply f args delimited, c)

def root (c : Cursor) : Attempt (Formula × Cursor) :=
  if c.kind = some (.opening .square) then do
    let (index, c) ← k .bracketed .square c.next
    let (x, c) ← k .operand true c
    return (.root (some index) x, c)
  else do
    let (x, c) ← k .operand true c
    return (.root none x, c)

def operands (build : Formula → Formula → Formula) (c : Cursor) : Attempt (Formula × Cursor) := do
  let (top, c) ← k .operand false c
  let (bottom, c) ← k .operand true c
  return (build top bottom, c)

def indexBinding (c : Cursor) : Attempt ((String × Formula) × Cursor) := do
  let c ← c.expect (.opening .curly) .brace
  let (name, c) ← symbolName c
  let c ← c.expect (.relation .equal) .equals
  let (lower, c) ← k .bracketed .curly c
  return ((name, lower), c)

def aggregateBound (bounds : Option (String × Formula) × Option Formula) (c : Cursor) :
    Attempt ((Option (String × Formula) × Option Formula) × Cursor) :=
  match c.kind, bounds with
  | some .underscore, (none, upper) => do
    let (lower, c) ← k .indexBinding () c.next
    return ((some lower, upper), c)
  | some .caret, (lower, none) => do
    let (upper, c) ← k .operand true c.next
    return ((lower, some upper), c)
  | _, _ => .ok (bounds, c)

def aggregate (kind : Aggregate) (mode : Mode) (c : Cursor) : Attempt (Formula × Cursor) := do
  let (bounds, c) ← k .aggregateBound (none, none) c
  let ((lower?, upper?), c) ← k .aggregateBound bounds c
  match lower?, upper? with
  | none, _ => refuse c .indexBinding
  | some _, none => refuse c .upperBound
  | some (name, lower), some upper =>
    let (body, c) ← k .signedTerm { mode with bareArgument := false } c
    return (.aggregate kind name lower upper body, c)

def integralLimit (c : Cursor) : Attempt (Formula × Cursor) :=
  if c.kind = some .minus then do
    let (x, c) ← k .operand true c.next
    return (.negated x, c)
  else
    k .operand true c

def integralBound (bounds : Option Formula × Option Formula) (c : Cursor) :
    Attempt ((Option Formula × Option Formula) × Cursor) :=
  match c.kind, bounds with
  | some .underscore, (none, upper) => do
    let (lower, c) ← k .integralLimit () c.next
    return ((some lower, upper), c)
  | some .caret, (lower, none) => do
    let (upper, c) ← k .integralLimit () c.next
    return ((lower, some upper), c)
  | _, _ => .ok (bounds, c)

def integral (mode : Mode) (c : Cursor) : Attempt (Formula × Cursor) := do
  let (bounds, c) ← k .integralBound (none, none) c
  let ((lower, upper), c) ← k .integralBound bounds c
  let (body, c) ← k .integralBody { mode with bareArgument := false } c
  return (.integral lower upper body, c)

def atom (mode : Mode) (c : Cursor) : Attempt (Formula × Cursor) :=
  match c.kind with
  | some .number => .ok (.number c.text, c.next)
  | some .symbol => k .symbolOrCall () c
  | some .infinity => .ok (.infinity, c.next)
  | some (.opening .floor) => do
    let (x, c) ← k .bracketed .floor c.next
    return (.apply .floor [x] true, c)
  | some (.opening .ceil) => do
    let (x, c) ← k .bracketed .ceil c.next
    return (.apply .ceil [x] true, c)
  | some (.opening .angle) => k .angle () c.next
  | some (.opening d) => k .group d c
  | some .pipe => if mode.insideBars then refuse c .expression else k .bars () c.next
  | some (.function f) => k .application (f, mode) c.next
  | some .sqrt => k .root () c.next
  | some .frac => k .fraction () c.next
  | some .binom => k .binomial () c.next
  | some .sum => k .aggregate (.sum, mode) c.next
  | some .prod => k .aggregate (.product, mode) c.next
  | some .int => k .integral mode c.next
  | some .lim => k .limit mode c.next
  | some .differential => differential false c.next
  | some .partialSign => differential true c.next
  | _ => refuse c .expression

def factor (mode : Mode) (c : Cursor) : Attempt (Formula × Cursor) := do
  let (base, c) ← k .atom mode c
  k .factorTail (mode, base) c

def exponent (c : Cursor) : Attempt (Exponent × Cursor) :=
  let ofFormula (r : Attempt (Formula × Cursor)) : Attempt (Exponent × Cursor) := do
    let (x, c) ← r
    return (.value x, c)
  match c.kind with
  | some (.opening .curly) =>
    match bracedMarker? c with
    | some marker => .ok (marker, c.skip 3)
    | none => ofFormula (k .bracketed .curly c.next)
  | some .dagger | some .star => .ok (.dagger, c.next)
  | some .prime => .ok (.prime, c.next)
  | some .minus => do
    let (e, c) ← k .exponent () c.next
    match e with
    | .value x => return (.value (.negated x), c)
    | _ => refuse c .exponent
  | some .number =>
    match c.takeDigit? with
    | some (digit, c) => .ok (.value (.number digit), c)
    | none => refuse c .exponent
  | some .symbol => .ok (.value (.symbol c.text), c.next)
  | some .infinity => .ok (.value .infinity, c.next)
  | some (.opening .round) => ofFormula (k .group .round c)
  | some .frac => ofFormula (k .fraction () c.next)
  | some .binom => ofFormula (k .binomial () c.next)
  | some .sqrt => ofFormula (k .root () c.next)
  | _ => refuse c .exponent

def signedFactor (mode : Mode) (c : Cursor) : Attempt (Formula × Cursor) :=
  match c.kind with
  | some .minus => do
    let (x, c) ← k .signedFactor mode c.next
    return (.negated x, c)
  | some .plus => k .signedFactor mode c.next
  | _ => k .factor mode c

def term (mode : Mode) (c : Cursor) : Attempt (Formula × Cursor) := do
  let (left, c) ← k .factor mode c
  k .termTail (mode, left) c

def termTail (mode : Mode) (left : Formula) (c : Cursor) : Attempt (Formula × Cursor) :=
  let explicit (op : Operation) : Attempt (Formula × Cursor) :=
    if mode.bareArgument then
      .ok (left, c)
    else do
      let (right, c) ← k .signedFactor mode c.next
      k .termTail (mode, .binary op left right) c
  if left.lastFactor.isDifferential then
    .ok (left, c)
  else
    match c.kind with
    | some .star => explicit .mul
    | some .slash => explicit .div
    | _ =>
      match adjacency? declared left.lastFactor mode c with
      | some adjacency => do
        let (right, c) ← k .factor mode c
        k .termTail (mode, .juxtaposed adjacency left right) c
      | none => .ok (left, c)

def signedTerm (mode : Mode) (c : Cursor) : Attempt (Formula × Cursor) :=
  match c.kind with
  | some .minus => do
    let (x, c) ← k .signedTerm mode c.next
    return (.negated x, c)
  | some .plus => k .signedTerm mode c.next
  | _ => k .term mode c

/-- What each function does once the calls that it makes are answered by `k`. A
function that calls none but the rules of the record is taken as it stands. -/
def step : Answers
  | .member => fun _ => member (k.rules declared)
  | .sum => Grammar.sum (k.rules declared)
  | .sumTail => fun (mode, left) => Grammar.sumTail (k.rules declared) mode left
  | .signedTerm => k.signedTerm
  | .term => k.term
  | .termTail => fun (mode, left) => k.termTail declared mode left
  | .signedFactor => k.signedFactor
  | .factor => k.factor
  | .factorTail => fun (mode, base) => Grammar.factorTail (k.rules declared) mode base
  | .exponent => fun _ => k.exponent
  | .atom => k.atom
  | .bracketed => Grammar.bracketed (k.rules declared)
  | .group => k.group
  | .symbolOrCall => fun _ => symbolOrCall (k.rules declared)
  | .arguments => Grammar.arguments (k.rules declared)
  | .operand => k.operand
  | .logBase => k.logBase
  | .functionExponent => functionExponent (k.rules declared)
  | .functionArguments => fun (f, mode) => k.functionArguments f mode
  | .application => fun (f, mode) => k.application f mode
  | .root => fun _ => k.root
  | .fraction => fun _ => k.operands .fraction
  | .binomial => fun _ => k.operands .binomial
  | .bars => fun _ => bars (k.rules declared)
  | .angle => fun _ => angle (k.rules declared)
  | .indexBinding => fun _ => k.indexBinding
  | .aggregateBound => k.aggregateBound
  | .aggregate => fun (kind, mode) => k.aggregate kind mode
  | .integralLimit => fun _ => k.integralLimit
  | .integralBound => k.integralBound
  | .integralBody => Grammar.integralBody (k.rules declared)
  | .integral => k.integral
  | .limit => Grammar.limit (k.rules declared)

end Answers

/-- The functions that others call through the record of rules, one level down. -/
def Rule.isTied : Rule → Bool
  | sum | sumTail | signedTerm | termTail | signedFactor | factorTail | exponent | arguments => true
  | _ => false

namespace Rules

variable (g : Rules) {r : Rule}

theorem answers_deeper (tied : r.isTied = true) :
    g.deeper.answers r = g.answers.step g.declared r := by
  cases r with
  | sum | sumTail | signedTerm | termTail | signedFactor | factorTail | exponent | arguments => rfl
  | _ => cases tied

theorem answers_eq_step (loose : r.isTied = false) :
    g.answers r = g.answers.step g.declared r := by
  cases r with
  | sum | sumTail | signedTerm | termTail | signedFactor | factorTail | exponent | arguments =>
    cases loose
  | _ => rfl

end Rules

end AnswerKey.Grammar

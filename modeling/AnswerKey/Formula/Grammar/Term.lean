import AnswerKey.Formula.Grammar.Binder

/-! Atoms, factors, terms and sums. -/
namespace AnswerKey.Grammar

variable (g : Rules)

def atom (mode : Mode) (c : Cursor) : Attempt (Formula × Cursor) :=
  match c.kind with
  | some .number => .ok (.number c.text, c.next)
  | some .symbol => symbolOrCall g c
  | some .infinity => .ok (.infinity, c.next)
  | some (.opening .floor) => do
    let (x, c) ← bracketed g .floor c.next
    return (.apply .floor [x] true, c)
  | some (.opening .ceil) => do
    let (x, c) ← bracketed g .ceil c.next
    return (.apply .ceil [x] true, c)
  | some (.opening .angle) => angle g c.next
  | some (.opening d) => group g d c
  | some .pipe => if mode.insideBars then refuse c .expression else bars g c.next
  | some (.function f) => application g f mode c.next
  | some .sqrt => root g c.next
  | some .frac => fraction g c.next
  | some .binom => binomial g c.next
  | some .sum => aggregate g .sum mode c.next
  | some .prod => aggregate g .product mode c.next
  | some .int => integral g mode c.next
  | some .lim => limit g mode c.next
  | some .differential => differential false c.next
  | some .partialSign => differential true c.next
  | _ => refuse c .expression

def factor (mode : Mode) (c : Cursor) : Attempt (Formula × Cursor) := do
  let (base, c) ← atom g mode c
  g.factorTail mode base c

def factorTail (mode : Mode) (base : Formula) (c : Cursor) : Attempt (Formula × Cursor) :=
  match c.kind with
  | some .caret =>
    if mode.limitTarget && sideFollows c then
      .ok (base, c)
    else do
      let (e, c) ← g.exponent c.next
      match e with
      | .value x => g.factorTail mode (.power base x) c
      | .dagger => g.factorTail mode (.dagger base) c
      | .prime => g.factorTail mode (.primed base) c
  | some .bang => g.factorTail mode (.factorial base) c.next
  | some .prime => g.factorTail mode (.primed base) c.next
  | _ => .ok (base, c)

/-- The marker that is all of a braced exponent here. -/
def bracedMarker? (c : Cursor) : Option Exponent :=
  if c.kindAt 2 = some (.closing .curly) then
    match c.kindAt 1 with
    | some .dagger | some .star => some .dagger
    | some .prime => some .prime
    | _ => none
  else
    none

def exponent (c : Cursor) : Attempt (Exponent × Cursor) :=
  let ofFormula (r : Attempt (Formula × Cursor)) : Attempt (Exponent × Cursor) := do
    let (x, c) ← r
    return (.value x, c)
  match c.kind with
  | some (.opening .curly) =>
    match bracedMarker? c with
    | some marker => .ok (marker, c.skip 3)
    | none => ofFormula (bracketed g .curly c.next)
  | some .dagger | some .star => .ok (.dagger, c.next)
  | some .prime => .ok (.prime, c.next)
  | some .minus => do
    let (e, c) ← g.exponent c.next
    match e with
    | .value x => return (.value (.negated x), c)
    | _ => refuse c .exponent
  | some .number =>
    match c.takeDigit? with
    | some (digit, c) => .ok (.value (.number digit), c)
    | none => refuse c .exponent
  | some .symbol => .ok (.value (.symbol c.text), c.next)
  | some .infinity => .ok (.value .infinity, c.next)
  | some (.opening .round) => ofFormula (group g .round c)
  | some .frac => ofFormula (fraction g c.next)
  | some .binom => ofFormula (binomial g c.next)
  | some .sqrt => ofFormula (root g c.next)
  | _ => refuse c .exponent

def signedFactor (mode : Mode) (c : Cursor) : Attempt (Formula × Cursor) :=
  match c.kind with
  | some .minus => do
    let (x, c) ← g.signedFactor mode c.next
    return (.negated x, c)
  | some .plus => g.signedFactor mode c.next
  | _ => factor g mode c

def term (mode : Mode) (c : Cursor) : Attempt (Formula × Cursor) := do
  let (left, c) ← factor g mode c
  g.termTail mode left c

/-- Further factors of a term; a differential ends it. -/
def termTail (mode : Mode) (left : Formula) (c : Cursor) : Attempt (Formula × Cursor) :=
  let explicit (op : Operation) : Attempt (Formula × Cursor) :=
    if mode.bareArgument then
      .ok (left, c)
    else do
      let (right, c) ← g.signedFactor mode c.next
      g.termTail mode (.binary op left right) c
  if left.lastFactor.isDifferential then
    .ok (left, c)
  else
    match c.kind with
    | some .star => explicit .mul
    | some .slash => explicit .div
    | _ =>
      match adjacency? g.declared left.lastFactor mode c with
      | some adjacency => do
        let (right, c) ← factor g mode c
        g.termTail mode (.juxtaposed adjacency left right) c
      | none => .ok (left, c)

def signedTerm (mode : Mode) (c : Cursor) : Attempt (Formula × Cursor) :=
  match c.kind with
  | some .minus => do
    let (x, c) ← g.signedTerm mode c.next
    return (.negated x, c)
  | some .plus => g.signedTerm mode c.next
  | _ => term g mode c

def sum (mode : Mode) (c : Cursor) : Attempt (Formula × Cursor) := do
  let (left, c) ← g.signedTerm mode c
  g.sumTail mode left c

/-- Further terms of a sum. In a limit's target a sign before the closing brace
is left alone. -/
def sumTail (mode : Mode) (left : Formula) (c : Cursor) : Attempt (Formula × Cursor) :=
  let more (op : Operation) : Attempt (Formula × Cursor) :=
    if mode.limitTarget && c.kindAt 1 = some (.closing .curly) then
      .ok (left, c)
    else do
      let (right, c) ← g.signedTerm mode c.next
      g.sumTail mode (.binary op left right) c
  match c.kind with
  | some .plus => more .add
  | some .minus => more .sub
  | _ => .ok (left, c)

def arguments (d : Delimiter) (c : Cursor) : Attempt (List Formula × Cursor) := do
  let (x, c) ← g.sum .plain c
  if c.kind = some .comma then
    let (rest, c) ← g.arguments d c.next
    return (x :: rest, c)
  else if c.kind = some (.closing d) then
    return ([x], c.next)
  else
    refuse c (.argumentEnd d)

end AnswerKey.Grammar

import AnswerKey.Formula.Grammar.Application

/-! Differentials, sums, products, integrals and limits. -/
namespace AnswerKey.Grammar

variable (g : Rules)

/-- A differential; the cursor stands after its marker. -/
def differential (isPartial : Bool) (c : Cursor) : Attempt (Formula × Cursor) :=
  if c.kind = some .symbol then do
    let (name, c) ← symbolName c
    return (.differential (some name) isPartial, c)
  else
    .ok (.differential none isPartial, c)


def indexBinding (c : Cursor) : Attempt ((String × Formula) × Cursor) := do
  let c ← c.expect (.opening .curly) .brace
  let (name, c) ← symbolName c
  let c ← c.expect (.relation .equal) .equals
  let (lower, c) ← bracketed g .curly c
  return ((name, lower), c)

def aggregateBound (bounds : Option (String × Formula) × Option Formula) (c : Cursor) :
    Attempt ((Option (String × Formula) × Option Formula) × Cursor) :=
  match c.kind, bounds with
  | some .underscore, (none, upper) => do
    let (lower, c) ← indexBinding g c.next
    return ((some lower, upper), c)
  | some .caret, (lower, none) => do
    let (upper, c) ← operand g true c.next
    return ((lower, some upper), c)
  | _, _ => .ok (bounds, c)

def aggregate (kind : Aggregate) (mode : Mode) (c : Cursor) : Attempt (Formula × Cursor) := do
  let (bounds, c) ← aggregateBound g (none, none) c
  let ((lower?, upper?), c) ← aggregateBound g bounds c
  match lower?, upper? with
  | none, _ => refuse c .indexBinding
  | some _, none => refuse c .upperBound
  | some (name, lower), some upper =>
    let (body, c) ← g.signedTerm { mode with bareArgument := false } c
    return (.aggregate kind name lower upper body, c)

/-- A bound of an integral, which may have its minus sign outside braces. -/
def integralLimit (c : Cursor) : Attempt (Formula × Cursor) :=
  if c.kind = some .minus then do
    let (x, c) ← operand g true c.next
    return (.negated x, c)
  else
    operand g true c

def integralBound (bounds : Option Formula × Option Formula) (c : Cursor) :
    Attempt ((Option Formula × Option Formula) × Cursor) :=
  match c.kind, bounds with
  | some .underscore, (none, upper) => do
    let (lower, c) ← integralLimit g c.next
    return ((some lower, upper), c)
  | some .caret, (lower, none) => do
    let (upper, c) ← integralLimit g c.next
    return ((lower, some upper), c)
  | _, _ => .ok (bounds, c)

/-- What is integrated: a term, or a differential with a term after it. -/
def integralBody (mode : Mode) (c : Cursor) : Attempt (Formula × Cursor) :=
  let differentialFirst (isPartial : Bool) : Attempt (Formula × Cursor) := do
    let (d, c) ← differential isPartial c.next
    if startsFactor mode c then
      let (x, c) ← g.signedTerm mode c
      return (.juxtaposed .differential d x, c)
    else
      return (d, c)
  match c.kind with
  | some .differential => differentialFirst false
  | some .partialSign => differentialFirst true
  | _ => g.signedTerm mode c

def integral (mode : Mode) (c : Cursor) : Attempt (Formula × Cursor) := do
  let (bounds, c) ← integralBound g (none, none) c
  let ((lower, upper), c) ← integralBound g bounds c
  let (body, c) ← integralBody g { mode with bareArgument := false } c
  return (.integral lower upper body, c)

def side (c : Cursor) : Attempt (Option Side × Cursor) :=
  let sign (c : Cursor) : Option Side :=
    match c.kind with
    | some .plus => some .above
    | some .minus => some .below
    | _ => none
  if c.kind = some .caret then
    if c.next.kind = some (.opening .curly) then
      let c := c.next.next
      match sign c with
      | some s => do return (some s, ← c.next.expect (.closing .curly) (.closing .curly))
      | none => refuse c .direction
    else
      match sign c.next with
      | some s => .ok (some s, c.next.next)
      | none => .ok (none, c.next)
  else if c.kindAt 1 = some (.closing .curly) then
    match sign c with
    | some s => .ok (some s, c.next)
    | none => .ok (none, c)
  else
    .ok (none, c)

def limit (mode : Mode) (c : Cursor) : Attempt (Formula × Cursor) := do
  let c ← c.expect .underscore .underscore
  let c ← c.expect (.opening .curly) .brace
  let (name, c) ← symbolName c
  let c ← c.expect .to .arrow
  let (approach, c) ← g.sum { limitTarget := true } c
  let (s, c) ← side c
  let c ← c.expect (.closing .curly) (.closing .curly)
  let (body, c) ← g.signedTerm { mode with bareArgument := false } c
  return (.limit name approach s body, c)

end AnswerKey.Grammar

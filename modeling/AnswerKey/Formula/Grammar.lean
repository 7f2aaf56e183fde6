import AnswerKey.Formula.Grammar.Term

/-! The tower of rules. Each rule is a plain function over a record of the rules
that it may call again, so the height of a tower of such records bounds the
depth of every reading. -/
namespace AnswerKey

namespace Grammar

def Rules.exhausted (declared : List String) : Rules where
  declared := declared
  sum _ _ := .error .exhausted
  sumTail _ _ _ := .error .exhausted
  signedTerm _ _ := .error .exhausted
  termTail _ _ _ := .error .exhausted
  signedFactor _ _ := .error .exhausted
  factorTail _ _ _ := .error .exhausted
  exponent _ := .error .exhausted
  arguments _ _ := .error .exhausted

def Rules.deeper (g : Rules) : Rules where
  declared := g.declared
  sum := Grammar.sum g
  sumTail := Grammar.sumTail g
  signedTerm := Grammar.signedTerm g
  termTail := Grammar.termTail g
  signedFactor := Grammar.signedFactor g
  factorTail := Grammar.factorTail g
  exponent := Grammar.exponent g
  arguments := Grammar.arguments g

/-- The rules with a bound on the depth of calls. -/
def rules (declared : List String) : Nat → Rules
  | 0 => .exhausted declared
  | depth + 1 => (rules declared depth).deeper

/-- One member of an answer: an expression, or a relation of two. -/
def member (g : Rules) (c : Cursor) : Attempt (Formula × Cursor) := do
  let (left, c) ← g.sum .plain c
  match c.kind with
  | some (.relation r) =>
    let (right, c) ← g.sum .plain c.next
    match c.kind with
    | some (.relation _) => refuse c .singleRelation
    | _ => return (.relation r left right, c)
  | _ => return (left, c)

def wholeMember (g : Rules) (c : Cursor) : Attempt Formula := do
  let (x, c) ← member g c
  if c.tokens = [] then return x else refuse c .operatorOrEnd

/-- A depth that suffices for a cursor. Between two calls of the same rule at
least one token or digit is taken, and at most three rules call one another
before that. -/
def sufficientDepth (c : Cursor) : Nat := 3 * (c.size + 1)

end Grammar

/-- The formula that a token list writes. Errors past the last token are
reported at `limit`. -/
def Formula.ofTokens (declared : List String) (tokens : List Token) (limit : Nat) :
    Except SyntaxError Formula :=
  let start := Cursor.start tokens limit
  match Grammar.wholeMember (Grammar.rules declared (Grammar.sufficientDepth start)) start with
  | .ok x => .ok x
  | .error (.refused e) => .error e
  | .error .exhausted => .error (start.errorAt .expression)

end AnswerKey

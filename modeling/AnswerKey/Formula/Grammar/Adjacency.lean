import AnswerKey.Formula.Grammar.Basic

/-! What may follow a factor: when two neighbours multiply, and in which shape. -/
namespace AnswerKey.Grammar

def startsFactor (mode : Mode) (c : Cursor) : Bool :=
  match c.kind with
  | some .pipe => !mode.insideBars
  | some .number | some .symbol | some (.function _) | some .differential
  | some .partialSign | some (.opening _) | some .frac | some .binom | some .sqrt
  | some .sum | some .prod | some .int | some .lim | some .infinity => true
  | _ => false

def startsApplication (declared : List String) (mode : Mode) (c : Cursor) : Bool :=
  match c.kind with
  | some (.function _) | some .sqrt | some (.opening .floor) | some (.opening .ceil)
  | some (.opening .angle) => true
  | some .pipe => !mode.insideBars
  | some .symbol => c.kindAt 1 = some (.opening .round) && callable declared c.text
  | _ => false

def bareArgumentGoesOn (last : Formula) (isApplication : Bool) (c : Cursor) : Bool :=
  (match last with
    | .number _ | .symbol _ | .infinity => true
    | _ => false) &&
  (match c.kind with
    | some .number | some .symbol | some .infinity => true
    | _ => false) &&
  !isApplication && c.touchesPrevious

/-- The shape of the product of `last` with the factor that starts here. The
shapes are tried in a fixed order. -/
def neighbours (last : Formula) (isApplication : Bool) (kind : Token.Kind) : Option Adjacency :=
  let isGroup := kind = .opening .round || kind = .opening .square || kind = .opening .curly
  match last with
  | .number _ | .symbol _ | .infinity => some .numberOrSymbol
  | .fraction _ _ | .binomial _ _ => some .fraction
  | .power _ _ => some .power
  | .group _ =>
    if isGroup || (kind = .symbol && !isApplication) then
      some .groups
    else if isApplication || kind = .frac || kind = .binom || kind = .sum || kind = .prod ||
        kind = .int || kind = .lim then
      some .groupFunction
    else
      none
  | _ =>
    if last.isApplication then
      if isApplication then some .functions
      else if last.isDelimitedApplication then some .delimitedFunction
      else some .bareFunction
    else
      none

def adjacency? (declared : List String) (last : Formula) (mode : Mode) (c : Cursor) :
    Option Adjacency :=
  if startsFactor mode c then
    match c.kind with
    | none => none
    | some .differential | some .partialSign =>
      if mode.bareArgument then none else some .differential
    | some kind =>
      let isApplication := startsApplication declared mode c
      if mode.bareArgument && !bareArgumentGoesOn last isApplication c then none
      else neighbours last isApplication kind
  else
    none

def isSign : Option Token.Kind → Bool
  | some .plus | some .minus => true
  | _ => false

def sideFollows (c : Cursor) : Bool :=
  c.kind = some .caret &&
    ((isSign (c.kindAt 1) && c.kindAt 2 = some (.closing .curly)) ||
      (c.kindAt 1 = some (.opening .curly) && isSign (c.kindAt 2) &&
        c.kindAt 3 = some (.closing .curly)))

end AnswerKey.Grammar

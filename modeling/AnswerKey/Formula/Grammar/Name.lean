import AnswerKey.Formula.Cursor

/-! Names of symbols, with their subscripts. -/
namespace AnswerKey.Grammar

def isWordPart (t : Token) : Bool := t.kind = .number || t.kind = .symbol

/-- The name after an underscore: one digit or symbol, or a braced run of them. -/
def subscript (c : Cursor) : Except SyntaxError (String × Cursor) :=
  if c.kind = some (.opening .curly) then do
    let run := c.next.tokens.takeWhile isWordPart
    let name := String.join (run.map (·.text))
    let after := c.next.skip run.length
    if name = "" then
      .error (after.errorAt .subscript)
    else
      return (name, ← after.expect (.closing .curly) (.closing .curly))
  else
    match c.takeDigit? with
    | some r => .ok r
    | none =>
      if c.kind = some .symbol then .ok (c.text, c.next) else .error (c.errorAt .subscript)

def symbolName (c : Cursor) : Except SyntaxError (String × Cursor) :=
  if c.kind = some .symbol then
    if c.next.kind = some .underscore then do
      let (sub, after) ← subscript c.next.next
      return (c.text ++ "_" ++ sub, after)
    else
      .ok (c.text, c.next)
  else
    .error (c.errorAt .symbol)

end AnswerKey.Grammar

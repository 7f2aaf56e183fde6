import AnswerKey.Expr.OfFormula
import AnswerKey.Formula.Grammar
import AnswerKey.Token.Lexer

/-! Answers: a box around the whole is taken off, and what is left is cut into
members that are read on their own. -/
namespace AnswerKey

inductive ReadingError where
  | lexical (e : LexicalError)
  | grammatical (e : SyntaxError)
  | unsupported (u : Unsupported)

def ReadingError.message : ReadingError → String
  | lexical e => e.message
  | grammatical e => e.message
  | unsupported u => u.message

structure Member where
  source : String
  expr : Except ReadingError Expr

namespace Answer

/-- Cuts tokens at the brace that closes one opened before them, with `depth`
more braces open inside it. -/
def splitAtClose (depth : Nat) : List Token → Option (List Token × Token × List Token)
  | [] => none
  | t :: rest =>
    let inside (depth : Nat) : Option (List Token × Token × List Token) :=
      (splitAtClose depth rest).map fun (before, close, after) => (t :: before, close, after)
    match t.kind, depth with
    | .opening .curly, _ => inside (depth + 1)
    | .closing .curly, 0 => some ([], t, rest)
    | .closing .curly, depth + 1 => inside depth
    | _, _ => inside depth

/-- Takes a box from around the tokens. The number is the position at which the
tokens end. -/
def unbox (tokens : List Token) (limit : Nat) : Except SyntaxError (List Token × Nat) :=
  match tokens with
  | [] => .ok (tokens, limit)
  | t :: rest =>
    if t.kind = .boxed then
      match rest with
      | [] => .error ⟨limit, .brace, .endOfInput⟩
      | brace :: inner =>
        if brace.kind = .opening .curly then
          match splitAtClose 0 inner with
          | none => .error ⟨limit, .closing .curly, .endOfInput⟩
          | some (_, _, trailing :: _) =>
            .error ⟨trailing.start, .endOfInput, .token trailing.text⟩
          | some ([], close, []) =>
            .error ⟨close.start, .expression, .token Delimiter.curly.closer⟩
          | some (before, close, []) => .ok (before, close.start)
        else
          .error ⟨brace.start, .brace, .token brace.text⟩
    else
      .ok (tokens, limit)

def depthAfter (depth : Int) : Token.Kind → Int
  | .opening _ => depth + 1
  | .closing _ => depth - 1
  | _ => depth

def isSeparator : Token.Kind → Bool
  | .comma | .semicolon => true
  | _ => false

/-- Cuts tokens at separators outside brackets. Each part comes with the
position at which it ends. -/
def splitMembers (limit : Nat) (depth : Int) : List Token → List (List Token × Nat)
  | [] => [([], limit)]
  | t :: rest =>
    if depth = 0 ∧ isSeparator t.kind then
      ([], t.start) :: splitMembers limit depth rest
    else
      match splitMembers limit (depthAfter depth t.kind) rest with
      | [] => [([t], limit)]
      | (part, stop) :: others => (t :: part, stop) :: others

def sourceOf (input : String) (tokens : List Token) : String :=
  match tokens.head?, tokens.getLast? with
  | some first, some last => String.ofList (Text.slice first.start last.stop input.toList)
  | _, _ => ""

def readMember (declared : List String) (tokens : List Token) (limit : Nat) :
    Except ReadingError Expr :=
  if tokens = [] then
    .error (.grammatical ⟨limit, .expression, .separatorOrEnd⟩)
  else do
    let formula ← (Formula.ofTokens declared tokens limit).mapError .grammatical
    formula.toExpr.mapError .unsupported

/-- The members of an answer. A text that does not fall into tokens or has a
faulty box fails as a whole; other faults stay with their member. -/
def read (declared : List String) (input : String) : Except ReadingError (List Member) := do
  let size := Text.size input.toList
  let tokens ← (Token.lex input).mapError .lexical
  if tokens = [] then
    .error (.grammatical ⟨size, .expression, .endOfInput⟩)
  else
    let (tokens, limit) ← (unbox tokens size).mapError .grammatical
    return (splitMembers limit 0 tokens).map fun (part, stop) =>
      ⟨sourceOf input part, readMember declared part stop⟩

end Answer

end AnswerKey

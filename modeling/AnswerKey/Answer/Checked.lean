import AnswerKey.Answer
import AnswerKey.Answer.Scan

/-! The reading of an answer with the faults that would stop it. Texts are cut at byte
offsets, tokens are found by their indices, and counts do not go below zero. -/
namespace AnswerKey.Checked

open Answer (splitMembers readMember)

/-- A cut that is not between two characters, an index past the end, or a count that
would go below zero. -/
inductive Fault where
  | cut (fault : Answer.Scan.Fault)
  | index
  | count
  deriving DecidableEq, Repr

def cut (start stop : Nat) (cs : List Char) : Except Fault (List Char) :=
  (Answer.Scan.cut start stop cs).mapError .cut

def minus (n m : Nat) : Except Fault Nat := if n < m then .error .count else .ok (n - m)

def brace? (cs : List Char) : Option Nat :=
  if cs.contains '{' then some (Text.size (cs.takeWhile (· != '{'))) else none

def recut (lexeme : Lexeme) : Except Fault Lexeme :=
  let text := lexeme.text
  match lexeme with
  | .command _ => do
    let name ← cut 1 (Text.size text) text
    return .command name
  | .wrapped word _ => do
    let last ← minus (Text.size text) 1
    let content ← cut ((brace? text).getD last + 1) last text
    return .wrapped word content
  | .unterminated _ content => do
    let word ← cut 1 ((brace? text).getD (Text.size text)) text
    return .unterminated word content
  | _ => .ok lexeme

def lexFrom (position skip : Nat) :
    List Char → Except Fault (Except LexicalError (List Token))
  | [] => .ok (.ok [])
  | c :: cs =>
    match skip with
    | skip + 1 => lexFrom (position + c.utf8Size) skip cs
    | 0 => do
      let lexeme ← recut (.scan c cs)
      match lexeme.tokens position with
      | .error e => return .error e
      | .ok first =>
        let rest ← lexFrom (position + c.utf8Size) (lexeme.text.length - 1) cs
        return rest.map (first ++ ·)

/-- The index of the brace that closes the first one, with `depth` braces open before
the token at `index`. -/
def closeIndex (depth index : Nat) : List Token → Except Fault (Option Nat)
  | [] => .ok none
  | t :: rest =>
    match t.kind with
    | .opening .curly => closeIndex (depth + 1) (index + 1) rest
    | .closing .curly => do
      let depth ← minus depth 1
      if depth = 0 then return some index else closeIndex depth (index + 1) rest
    | _ => closeIndex depth (index + 1) rest

def tokenAt (tokens : List Token) (index : Nat) : Except Fault Token :=
  match tokens[index]? with
  | some t => .ok t
  | none => .error .index

def dropFirst (count : Nat) (tokens : List Token) : Except Fault (List Token) :=
  if tokens.length < count then .error .index else .ok (tokens.drop count)

def unbox (tokens : List Token) (limit : Nat) :
    Except Fault (Except SyntaxError (List Token × Nat)) :=
  if tokens.head?.map (·.kind) ≠ some .boxed then
    .ok (.ok (tokens, limit))
  else
    match tokens[1]? with
    | none => .ok (.error ⟨limit, .brace, .endOfInput⟩)
    | some brace =>
      if brace.kind ≠ .opening .curly then
        .ok (.error ⟨brace.start, .brace, .token brace.text⟩)
      else do
        match ← closeIndex 0 1 (tokens.drop 1) with
        | none => return .error ⟨limit, .closing .curly, .endOfInput⟩
        | some close =>
          match tokens[close + 1]? with
          | some trailing => return .error ⟨trailing.start, .endOfInput, .token trailing.text⟩
          | none =>
            let last ← tokenAt tokens close
            if close = 2 then
              return .error ⟨last.start, .expression, .token Delimiter.curly.closer⟩
            else
              let inner ← dropFirst 2 (tokens.take close)
              return .ok (inner, last.start)

def sourceOf (input : String) (tokens : List Token) : Except Fault String :=
  match tokens.head?, tokens.getLast? with
  | some first, some last => do
    let source ← cut first.start last.stop input.toList
    return String.ofList source
  | _, _ => .ok ""

def takeDigit? (c : Cursor) : Except Fault (Option (String × Cursor)) :=
  match c.tokens with
  | [] => .ok none
  | t :: rest =>
    if t.kind = .number then
      match t.text.toList.head?.filter Char.isDigit with
      | none => .ok none
      | some d =>
        if Text.size t.text.toList = 1 then
          .ok (some (d.toString, c.next))
        else
          match t.text.toList with
          | [] => .error .index
          | _ :: others =>
            let left := { t with text := String.ofList others, start := t.start + 1 }
            .ok (some (d.toString, { c with tokens := left :: rest }))
    else
      .ok none

def startsApplication (declared : List String) (mode : Grammar.Mode) (c : Cursor) :
    Except Fault Bool :=
  match c.kind with
  | some .symbol => do
    let here ← tokenAt c.tokens 0
    return c.kindAt 1 = some (.opening .round) && Grammar.callable declared here.text
  | _ => .ok (Grammar.startsApplication declared mode c)

def read (declared : List String) (input : String) :
    Except Fault (Except ReadingError (List Member)) := do
  let size := Text.size input.toList
  match ← lexFrom 0 0 input.toList with
  | .error e => return .error (.lexical e)
  | .ok tokens =>
    if tokens = [] then
      return .error (.grammatical ⟨size, .expression, .endOfInput⟩)
    else
      match ← unbox tokens size with
      | .error e => return .error (.grammatical e)
      | .ok (tokens, limit) =>
        let members ← (splitMembers limit 0 tokens).mapM fun (part, stop) => do
          let source ← sourceOf input part
          return (⟨source, readMember declared part stop⟩ : Member)
        return .ok members

end AnswerKey.Checked

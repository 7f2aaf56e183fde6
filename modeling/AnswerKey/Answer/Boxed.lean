import AnswerKey.Text

/-! The answer inside a longer response: the contents of its first box. -/
namespace AnswerKey.Answer

def boxCommands : List (List Char) := ["\\boxed".toList, "\\fbox".toList]

/-- The text up to the brace that closes one opened before it, with `depth` more
braces open inside it. A backslash makes the next character inert. -/
def untilClose (depth : Nat) : List Char → Option (List Char)
  | [] => none
  | '\\' :: [] => none
  | '\\' :: c :: rest => (untilClose depth rest).map ('\\' :: c :: ·)
  | '{' :: rest => (untilClose (depth + 1) rest).map ('{' :: ·)
  | '}' :: rest =>
    match depth with
    | 0 => some []
    | depth + 1 => (untilClose depth rest).map ('}' :: ·)
  | c :: rest => (untilClose depth rest).map (c :: ·)

def contentsAfter? (cs : List Char) : Option (List Char) :=
  match cs.dropWhile Text.isBlank with
  | '{' :: rest => untilClose 0 rest
  | _ => none

def boxHere? (cs : List Char) : Option (List Char) :=
  boxCommands.findSome? fun word =>
    if word.isPrefixOf cs then contentsAfter? (cs.drop word.length) else none

def firstBox? : List Char → Option (List Char)
  | [] => none
  | c :: rest => (boxHere? (c :: rest)).orElse fun _ => firstBox? rest

/-- The contents of the first balanced box, or the whole response where there is
none, without blanks around it. -/
def isolate (response : String) : String :=
  let cs := response.toList
  String.ofList (Text.trim ((firstBox? cs).getD cs))

end AnswerKey.Answer

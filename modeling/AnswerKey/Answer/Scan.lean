import AnswerKey.Answer.Boxed

/-! The search for a box over the bytes of a response, with the faults that would
stop it. -/
namespace AnswerKey.Answer.Scan

/-- A cut that is not between two characters, or a closing brace where none is open. -/
inductive Fault where
  | insideCharacter
  | unopened
  deriving DecidableEq, Repr

def bytes (cs : List Char) : List UInt8 := cs.flatMap String.utf8EncodeChar

def textFrom : Nat → List Char → Except Fault (List Char)
  | 0, cs => .ok cs
  | _ + 1, [] => .error .insideCharacter
  | n + 1, c :: cs =>
    if c.utf8Size ≤ n + 1 then textFrom (n + 1 - c.utf8Size) cs else .error .insideCharacter

def textUpTo : Nat → List Char → Except Fault (List Char)
  | 0, _ => .ok []
  | _ + 1, [] => .error .insideCharacter
  | n + 1, c :: cs =>
    if c.utf8Size ≤ n + 1 then (textUpTo (n + 1 - c.utf8Size) cs).map (c :: ·)
    else .error .insideCharacter

def cut (start stop : Nat) (cs : List Char) : Except Fault (List Char) :=
  if stop < start then .error .insideCharacter else textFrom start cs >>= textUpTo (stop - start)

/-- The byte offsets at which a word occurs; occurrences do not overlap. The first
`skip` characters belong to one that was found. -/
def occurrences (word : List Char) (offset skip : Nat) : List Char → List Nat
  | [] => []
  | c :: cs =>
    match skip with
    | skip + 1 => occurrences word (offset + c.utf8Size) skip cs
    | 0 =>
      if word.isPrefixOf (c :: cs) then
        offset :: occurrences word (offset + c.utf8Size) (word.length - 1) cs
      else
        occurrences word (offset + c.utf8Size) 0 cs

/-- The offset of the byte that closes the first brace, with `depth` braces open so
far. The byte behind a backslash is passed over. -/
def closeOffset (depth offset : Nat) : List UInt8 → Except Fault (Option Nat)
  | [] => .ok none
  | b :: rest =>
    if b = 0x5c then
      match rest with
      | [] => .ok none
      | _ :: rest => closeOffset depth (offset + 2) rest
    else if b = 0x7b then
      closeOffset (depth + 1) (offset + 1) rest
    else if b = 0x7d then
      match depth with
      | 0 => .error .unopened
      | 1 => .ok (some offset)
      | depth + 2 => closeOffset (depth + 1) (offset + 1) rest
    else
      closeOffset depth (offset + 1) rest

def braced (text : List Char) (opening : Nat) : Except Fault (Option (List Char)) := do
  match ← closeOffset 0 opening ((bytes text).drop opening) with
  | some stop => return some (← cut (opening + 1) stop text)
  | none => return none

def boxContents (text : List Char) (start : Nat) : Except Fault (Option (List Char)) := do
  let rest ← textFrom start text
  let opening := start + Text.size rest - Text.size (rest.dropWhile Text.isBlank)
  if (bytes text)[opening]? = some 0x7b then braced text opening else return none

def starts (text : List Char) : List Nat :=
  (boxCommands.flatMap fun word =>
    (occurrences word 0 0 text).map (· + Text.size word)).mergeSort (· ≤ ·)

def isolate (response : String) : Except Fault String := do
  let text := response.toList
  let contents ← (starts text).findSomeM? (boxContents text)
  return String.ofList (Text.trim (contents.getD text))

end AnswerKey.Answer.Scan

/-! JSON documents and their text, in one line or laid out over lines. -/
namespace AnswerKey

/-- A JSON document. Numbers are kept as they are written. A text is `none` when
an escape in it writes half of a surrogate pair. -/
inductive Json where
  | null
  | bool (b : Bool)
  | number (lexeme : String)
  | string (s : Option String)
  | array (items : List Json)
  | object (entries : List (Option String × Json))
  deriving Inhabited

namespace Json

def text (s : String) : Json := string (some s)

def optionalText (s : Option String) : Json :=
  match s with
  | some s => text s
  | none => null

def record (entries : List (String × Json)) : Json :=
  object (entries.map fun (key, value) => (some key, value))

def hexDigit (n : Nat) : Char := Nat.digitChar n

def escape (c : Char) : List Char :=
  if c = '"' then ['\\', '"']
  else if c = '\\' then ['\\', '\\']
  else if c = '\x08' then ['\\', 'b']
  else if c = '\x0c' then ['\\', 'f']
  else if c = '\n' then ['\\', 'n']
  else if c = '\r' then ['\\', 'r']
  else if c = '\t' then ['\\', 't']
  else if c.toNat < 0x20 then ['\\', 'u', '0', '0', hexDigit (c.toNat / 16), hexDigit (c.toNat % 16)]
  else [c]

def quoted (s : String) : String :=
  String.ofList ('"' :: s.toList.flatMap escape ++ ['"'])

def quotedOption (s : Option String) : String := quoted (s.getD "")

/-- How a document is laid out: what stands before an item or a closing bracket
of some depth, and after a key. -/
structure Layout where
  lineBreak : Nat → String
  afterKey : String

def Layout.compact : Layout := ⟨fun _ => "", ":"⟩

def Layout.pretty : Layout :=
  ⟨fun depth => "\n" ++ String.ofList (List.replicate (2 * depth) ' '), ": "⟩

mutual

def render (layout : Layout) (depth : Nat) : Json → String
  | null => "null"
  | bool b => if b then "true" else "false"
  | number lexeme => lexeme
  | string s => quotedOption s
  | array [] => "[]"
  | array (x :: rest) =>
    "[" ++ renderItems layout (depth + 1) (x :: rest) ++ layout.lineBreak depth ++ "]"
  | object [] => "\x7b\x7d"
  | object (e :: rest) =>
    "\x7b" ++ renderEntries layout (depth + 1) (e :: rest) ++ layout.lineBreak depth ++ "\x7d"

def renderItems (layout : Layout) (depth : Nat) : List Json → String
  | [] => ""
  | [x] => layout.lineBreak depth ++ render layout depth x
  | x :: rest =>
    layout.lineBreak depth ++ render layout depth x ++ "," ++ renderItems layout depth rest

def renderEntries (layout : Layout) (depth : Nat) : List (Option String × Json) → String
  | [] => ""
  | [e] => renderEntry layout depth e
  | e :: rest => renderEntry layout depth e ++ "," ++ renderEntries layout depth rest

def renderEntry (layout : Layout) (depth : Nat) : Option String × Json → String
  | (key, value) =>
    layout.lineBreak depth ++ quotedOption key ++ layout.afterKey ++ render layout depth value

end

def compact (j : Json) : String := render .compact 0 j

def pretty (j : Json) : String := render .pretty 0 j

end Json

end AnswerKey

import AnswerKey.Text
import AnswerKey.Token.Vocabulary

/-! Cutting a text into tokens. At each place the longest lexeme is taken;
blanks and spacing commands leave no token. -/
namespace AnswerKey

inductive Lexeme where
  | spacing (text : List Char)
  | number (digits : List Char)
  | letter (c : Char)
  | command (name : List Char)
  | wrapped (word content : List Char)
  | unterminated (word content : List Char)
  | mark (kind : Token.Kind) (text : List Char)
  | pi
  | unexpected (c : Char)

namespace Lexeme

def text : Lexeme → List Char
  | spacing t => t
  | number ds => ds
  | letter c => [c]
  | command name => '\\' :: name
  | wrapped word content => '\\' :: word ++ '{' :: content ++ ['}']
  | unterminated word content => '\\' :: word ++ '{' :: content
  | mark _ t => t
  | pi => ['π']
  | unexpected c => [c]

def fraction : List Char → List Char
  | '.' :: cs => '.' :: cs.takeWhile Char.isDigit
  | _ => []

def spacingMarks : List Char := [',', ';', ':', '!', ' ', '\\', '[', ']', '(', ')']

def skippedMarks : List Char := [' ', '\t', '\r', '\n', '$', '&', '~']

def afterBackslash (cs : List Char) : Lexeme :=
  let name := cs.takeWhile Char.isAlpha
  if name = [] then
    match cs with
    | '{' :: _ => mark (.opening .literalBrace) ['\\', '{']
    | '}' :: _ => mark (.closing .literalBrace) ['\\', '}']
    | c :: _ => if spacingMarks.contains c then spacing ['\\', c] else unexpected '\\'
    | [] => unexpected '\\'
  else
    match Token.wrapperCommands.contains (String.ofList name), cs.dropWhile Char.isAlpha with
    | true, '{' :: inner =>
      let content := inner.takeWhile fun c => c != '{' && c != '}'
      match inner.dropWhile fun c => c != '{' && c != '}' with
      | '}' :: _ => wrapped name content
      | _ => unterminated name content
    | _, _ => command name

/-- The longest lexeme of the text that starts with `c` and goes on with `cs`. -/
def scan (c : Char) (cs : List Char) : Lexeme :=
  if c.isDigit then
    let digits := c :: cs.takeWhile Char.isDigit
    number (digits ++ fraction (cs.dropWhile Char.isDigit))
  else if c.isAlpha then
    letter c
  else
    match c, cs with
    | '.', d :: _ => if d.isDigit then number (fraction (c :: cs)) else unexpected c
    | '\\', _ => afterBackslash cs
    | '<', '=' :: _ => mark (.relation .lessEqual) ['<', '=']
    | '>', '=' :: _ => mark (.relation .greaterEqual) ['>', '=']
    | 'π', _ => pi
    | _, _ =>
      if skippedMarks.contains c then
        spacing [c]
      else
        match Token.markCharacters.lookup c with
        | some kind => mark kind [c]
        | none => unexpected c

def meaning (position : Nat) : Lexeme → Except LexicalError Token.Meaning
  | spacing _ => .ok .nothing
  | number _ => .ok (.mark .number)
  | letter c => .ok (.mark (if c = 'd' then .differential else .symbol))
  | command name =>
    match Token.command? (String.ofList name) with
    | some m => .ok m
    | none => .error (.unknownCommand position (String.ofList name))
  | wrapped _ content =>
    let word := String.ofList (Text.trim content)
    match Token.wrappedWord? word with
    | some m => .ok m
    | none => .error (.unrecognizedText position word)
  | unterminated word _ => .error (.unterminatedWrapper position (String.ofList word))
  | mark kind _ => .ok (.mark kind)
  | pi => .ok (.named .symbol "pi")
  | unexpected c => .error (.unexpectedCharacter position c)

def tokens (position : Nat) (lexeme : Lexeme) : Except LexicalError (List Token) :=
  (lexeme.meaning position).map fun
    | .nothing => []
    | .mark kind =>
      [⟨kind, String.ofList lexeme.text, position, position + Text.size lexeme.text⟩]
    | .named kind name => [⟨kind, name, position, position + Text.size lexeme.text⟩]

end Lexeme

namespace Token

/-- The tokens of a text that starts at a byte position and whose first `skip`
characters belong to a lexeme already read. -/
def lexFrom (position skip : Nat) : List Char → Except LexicalError (List Token)
  | [] => .ok []
  | c :: cs =>
    match skip with
    | skip + 1 => lexFrom (position + c.utf8Size) skip cs
    | 0 => do
      let lexeme := Lexeme.scan c cs
      let first ← lexeme.tokens position
      let rest ← lexFrom (position + c.utf8Size) (lexeme.text.length - 1) cs
      return first ++ rest

def lex (source : String) : Except LexicalError (List Token) :=
  lexFrom 0 0 source.toList

end Token

end AnswerKey

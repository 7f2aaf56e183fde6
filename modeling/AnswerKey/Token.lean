import AnswerKey.Builtin

/-! Tokens of a written answer, with the bytes of the source they stand for. -/
namespace AnswerKey

inductive Delimiter where
  | round | square | curly | literalBrace | floor | ceil | angle
  deriving DecidableEq, Repr

namespace Token

inductive Kind where
  | number | symbol | function (f : Builtin) | differential | partialSign
  | plus | minus | star | slash | caret | underscore | bang | prime
  | comma | semicolon | relation (r : Relation)
  | opening (d : Delimiter) | closing (d : Delimiter) | pipe
  | frac | binom | sqrt | sum | prod | int | lim | to | infinity | boxed | dagger
  deriving DecidableEq, Repr

end Token

/-- The text of a symbol or a differential is its name; the text of any other
token is its part of the source. -/
structure Token where
  kind : Token.Kind
  text : String
  start : Nat
  stop : Nat
  deriving DecidableEq, Repr

inductive LexicalError where
  | unexpectedCharacter (position : Nat) (found : Char)
  | unknownCommand (position : Nat) (name : String)
  | unterminatedWrapper (position : Nat) (command : String)
  | unrecognizedText (position : Nat) (text : String)
  deriving DecidableEq

namespace LexicalError

def position : LexicalError → Nat
  | unexpectedCharacter p _ | unknownCommand p _ | unterminatedWrapper p _
  | unrecognizedText p _ => p

def message : LexicalError → String
  | unexpectedCharacter p c =>
    "unexpected character '" ++ c.toString ++ "' at position " ++ toString p
  | unknownCommand p name =>
    "unrecognized escape sequence '\\" ++ name ++ "' at position " ++ toString p
  | unterminatedWrapper p command =>
    "unterminated or nested braces in '\\" ++ command ++ "\x7b...\x7d' at position " ++ toString p
  | unrecognizedText p text =>
    "unsupported text '" ++ text ++ "' at position " ++ toString p

end LexicalError

end AnswerKey

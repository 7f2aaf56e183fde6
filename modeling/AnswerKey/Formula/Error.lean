import AnswerKey.Token

/-! Errors of a token list that is not a formula. -/
namespace AnswerKey

def Delimiter.closer : Delimiter → String
  | .round => ")"
  | .square => "]"
  | .curly => "\x7d"
  | .literalBrace => "\\\x7d"
  | .floor => "\\rfloor"
  | .ceil => "\\rceil"
  | .angle => "\\rangle"

inductive Expected where
  | expression | exponent | functionExponent | subscript | symbol | digitOrBrace
  | brace | parenthesis | closing (d : Delimiter) | argumentEnd (d : Delimiter)
  | pipe | equals | underscore | arrow | comma | direction
  | indexBinding | upperBound | parameterName
  | singleRelation | operatorOrEnd | endOfInput
  deriving DecidableEq, Repr

def Expected.text : Expected → String
  | expression => "expression"
  | exponent => "exponent"
  | functionExponent => "function exponent"
  | subscript => "subscript"
  | symbol => "symbol"
  | digitOrBrace => "digit or '\x7b'"
  | brace => "'\x7b'"
  | parenthesis => "'('"
  | closing d => "'" ++ d.closer ++ "'"
  | argumentEnd d => "',' or '" ++ d.closer ++ "'"
  | pipe => "'|'"
  | equals => "'='"
  | underscore => "'_'"
  | arrow => "'\\to'"
  | comma => "','"
  | direction => "'+' or '-'"
  | indexBinding => "'_\x7b' with an index variable"
  | upperBound => "'^' with an upper bound"
  | parameterName => "parameter name"
  | singleRelation => "end of expression (chained relations are not supported)"
  | operatorOrEnd => "operator or end of expression"
  | endOfInput => "end of input"

inductive Found where
  | token (text : String)
  | endOfInput
  | separatorOrEnd
  deriving DecidableEq, Repr

def Found.text : Found → String
  | token t => "'" ++ t ++ "'"
  | endOfInput => "end of input"
  | separatorOrEnd => "separator or end of input"

structure SyntaxError where
  position : Nat
  expected : Expected
  found : Found
  deriving DecidableEq

def SyntaxError.message (e : SyntaxError) : String :=
  "expected " ++ e.expected.text ++ ", found " ++ e.found.text ++
    " at position " ++ toString e.position

end AnswerKey

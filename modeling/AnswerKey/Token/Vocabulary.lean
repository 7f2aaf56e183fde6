import AnswerKey.Token

/-! What the commands of an answer stand for: Greek letters, functions, marks,
and spacing that is passed over. -/
namespace AnswerKey.Token

def greekLetters : List String :=
  ["alpha", "beta", "gamma", "delta", "epsilon", "zeta", "eta", "theta", "iota", "kappa",
   "lambda", "mu", "nu", "xi", "omicron", "pi", "rho", "sigma", "tau", "upsilon", "phi", "chi",
   "psi", "omega", "Gamma", "Delta", "Theta", "Lambda", "Xi", "Pi", "Sigma", "Upsilon", "Phi",
   "Psi", "Omega"]

/-- Drops the mark `var` of a letter's second shape. -/
def plainShape (name : String) : String :=
  match name.toList with
  | 'v' :: 'a' :: 'r' :: rest => String.ofList rest
  | _ => name

def greekLetter? (name : String) : Option String :=
  let letter := plainShape name
  if greekLetters.contains letter then some letter else none

def layoutCommands : List String :=
  ["left", "right", "middle", "big", "Big", "bigg", "Bigg", "bigl", "bigr", "Bigl", "Bigr",
   "biggl", "biggr", "Biggl", "Biggr", "displaystyle", "textstyle", "scriptstyle", "limits",
   "nolimits", "quad", "qquad", "hline", "vline", "mathstrut"]

def wrapperCommands : List String :=
  ["text", "textrm", "textit", "mathrm", "mathit", "operatorname", "rm"]

/-- Commands with one fixed kind. Of a double sign the upper one counts. -/
def markCommands : List (String × Kind) :=
  [("cdot", .star), ("times", .star), ("ast", .star), ("div", .slash),
   ("pm", .plus), ("mp", .minus),
   ("neq", .relation .notEqual), ("ne", .relation .notEqual),
   ("leq", .relation .lessEqual), ("le", .relation .lessEqual),
   ("leqslant", .relation .lessEqual),
   ("geq", .relation .greaterEqual), ("ge", .relation .greaterEqual),
   ("geqslant", .relation .greaterEqual),
   ("lt", .relation .less), ("gt", .relation .greater),
   ("approx", .relation .equal), ("sim", .relation .equal), ("simeq", .relation .equal),
   ("frac", .frac), ("dfrac", .frac), ("tfrac", .frac), ("cfrac", .frac),
   ("binom", .binom), ("dbinom", .binom), ("tbinom", .binom),
   ("sqrt", .sqrt), ("sum", .sum), ("prod", .prod), ("int", .int), ("lim", .lim),
   ("to", .to), ("rightarrow", .to), ("longrightarrow", .to),
   ("infty", .infinity), ("boxed", .boxed), ("fbox", .boxed), ("dagger", .dagger),
   ("partial", .partialSign), ("prime", .prime),
   ("lfloor", .opening .floor), ("rfloor", .closing .floor),
   ("lceil", .opening .ceil), ("rceil", .closing .ceil),
   ("langle", .opening .angle), ("rangle", .closing .angle),
   ("lvert", .pipe), ("rvert", .pipe), ("vert", .pipe), ("mid", .pipe)]

def markCharacters : List (Char × Kind) :=
  [('+', .plus), ('±', .plus), ('-', .minus), ('−', .minus), ('∓', .minus),
   ('*', .star), ('×', .star), ('·', .star), ('/', .slash), ('÷', .slash),
   ('^', .caret), ('_', .underscore), ('!', .bang), ('\'', .prime),
   (',', .comma), (';', .semicolon),
   ('=', .relation .equal), ('≠', .relation .notEqual),
   ('<', .relation .less), ('≤', .relation .lessEqual),
   ('>', .relation .greater), ('≥', .relation .greaterEqual),
   ('(', .opening .round), (')', .closing .round),
   ('[', .opening .square), (']', .closing .square),
   ('{', .opening .curly), ('}', .closing .curly),
   ('|', .pipe), ('√', .sqrt), ('∞', .infinity)]

inductive Meaning where
  | nothing
  | mark (kind : Kind)
  | named (kind : Kind) (name : String)
  deriving DecidableEq

/-- A capital gamma and a root sign are not function words here: the first is a
letter, the second has a grammar of its own. -/
def command? (name : String) : Option Meaning :=
  if layoutCommands.contains name then
    some .nothing
  else
    match greekLetter? name with
    | some letter => some (.named .symbol letter)
    | none =>
      match (Builtin.ofName? name).filter fun f => f ≠ .gamma ∧ f ≠ .sqrt with
      | some f => some (.mark (.function f))
      | none => (markCommands.lookup name).map .mark

def wrappedWord? (content : String) : Option Meaning :=
  if content = "" then
    some .nothing
  else if content = "d" then
    some (.named .differential content)
  else
    match (Builtin.ofName? content).filter fun f => f ≠ .sqrt with
    | some f => some (.mark (.function f))
    | none =>
      if content.toList.all Char.isAlpha then some (.named .symbol content) else none

end AnswerKey.Token

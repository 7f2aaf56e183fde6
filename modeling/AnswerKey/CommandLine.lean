import AnswerKey.Grading.Document
import AnswerKey.Grading.Session

/-! The command line: what its arguments ask for, and what is printed. -/
namespace AnswerKey.CommandLine

inductive Shape where
  /-- The mark after which every argument is a plain one. -/
  | escape
  | long (name : String) (value : Option String)
  | short (letters : String)
  | plain (text : String)
  deriving DecidableEq

def splitValue (cs : List Char) : String × Option String :=
  match cs.dropWhile (· ≠ '=') with
  | [] => (String.ofList cs, none)
  | _ :: value => (String.ofList (cs.takeWhile (· ≠ '=')), some (String.ofList value))

def shape (s : String) : Shape :=
  match s.toList with
  | ['-', '-'] => .escape
  | '-' :: '-' :: rest =>
    let (name, value) := splitValue rest
    .long name value
  | '-' :: c :: rest => .short (String.ofList (c :: rest))
  | _ => .plain s

structure Found where
  options : List (String × String) := []
  plain : List String := []

def Found.value? (f : Found) (name : String) : Option String := f.options.lookup name

/-- Adds an option; none may stand twice at one level, and each checks its value. -/
def Found.add? (f : Found) (isValid : String → String → Bool) (name value : String) :
    Option Found :=
  if (f.value? name).isSome || !isValid name value then none
  else some { f with options := f.options ++ [(name, value)] }

def Found.addPlain (f : Found) (text : String) : Found := { f with plain := f.plain ++ [text] }

/-- A natural number below `2 ^ 64`, perhaps with a plus sign. -/
def seed? (s : String) : Option Nat :=
  let ds := match s.toList with
    | '+' :: rest => rest
    | cs => cs
  let n := Decimal.natOfDigits ds
  if ds ≠ [] ∧ ds.all Char.isDigit ∧ n < Nat.pow 2 64 then some n else none

def globalOptions : List String := ["config", "seed"]

def isValidValue (name value : String) : Bool :=
  if name = "seed" then (seed? value).isSome
  else if name = "config" then value ≠ ""
  else true

/-- Reads the arguments of a command. An option whose value is still to come is
`pending`. -/
def readCommand (known : List String) (escaped : Bool) (pending : Option String) (f : Found) :
    List String → Option Found
  | [] => if pending.isSome then none else some f
  | s :: rest =>
    match escaped, pending, shape s with
    | true, some _, _ => none
    | true, none, _ => readCommand known true none (f.addPlain s) rest
    | false, some name, .plain value => do
      readCommand known false none (← f.add? isValidValue name value) rest
    | false, some _, _ => none
    | false, none, .escape => readCommand known true none f rest
    | false, none, .long name (some value) =>
      if known.contains name then do
        readCommand known false none (← f.add? isValidValue name value) rest
      else
        none
    | false, none, .long name none =>
      if known.contains name && (f.value? name).isNone then
        readCommand known false (some name) f rest
      else
        none
    | false, none, .short _ => none
    | false, none, .plain text => readCommand known false none (f.addPlain text) rest

inductive Command where
  | grade (latex parameters : String)
  | compare (solution response parameters : String)

structure Request where
  config : Option String
  seed : Option Nat
  command : Command

inductive Reading where
  | version
  | request (r : Request)

def gradeCommand? (f : Found) : Option Command :=
  match f.plain with
  | [latex] => some (.grade latex ((f.value? "parameters").getD ""))
  | _ => none

def compareCommand? (f : Found) : Option Command := do
  let solution ← f.value? "solution"
  let response ← f.value? "response"
  if f.plain = [] then
    return .compare solution response ((f.value? "parameters").getD "")
  else
    none

/-- A request. An option after the command hides the same one before it. -/
def request (before after : Found) (command : Command) : Request :=
  let value? (name : String) : Option String := (after.value? name).orElse fun _ => before.value? name
  ⟨value? "config", (value? "seed").bind seed?, command⟩

def readCommandWord (before : Found) (word : String) (rest : List String) : Option Reading :=
  if word = "parse" then do
    let after ← readCommand ("parameters" :: globalOptions) false none {} rest
    return .request (request before after (← gradeCommand? after))
  else if word = "eval" then do
    let known := "solution" :: "response" :: "parameters" :: globalOptions
    let after ← readCommand known false none {} rest
    return .request (request before after (← compareCommand? after))
  else
    none

/-- Reads all arguments; none stands for a usage error. The version may be asked
for before any command. -/
def read (pending : Option String) (f : Found) : List String → Option Reading
  | [] => none
  | s :: rest =>
    match pending, shape s with
    | some name, .plain value => do read none (← f.add? isValidValue name value) rest
    | some _, _ => none
    | none, .long name (some value) =>
      if globalOptions.contains name then do
        read none (← f.add? isValidValue name value) rest
      else
        none
    | none, .long name none =>
      if name = "version" then some .version
      else if globalOptions.contains name && (f.value? name).isNone then read (some name) f rest
      else none
    | none, .short letters => if letters.toList.head? = some 'V' then some .version else none
    | none, .plain word => readCommandWord f word rest
    | none, .escape => none

def ofArguments (args : List String) : Option Reading := read none {} args

structure Response where
  code : Nat
  output : String

def usageError : Response := ⟨2, ""⟩

def configError : Response := ⟨1, ""⟩

def versionResponse : Response := ⟨0, "grader 0.1.0\n"⟩

def Request.settings (r : Request) (configText : Option String) :
    Except Grading.Settings.LoadError Grading.Settings := do
  let base ← if r.config.isSome then Grading.Settings.load configText else .ok {}
  return { base with seed := r.seed.orElse fun _ => base.seed }

def Request.readsInput (r : Request) : Bool :=
  match r.command with
  | .compare _ response _ => response = "-"
  | .grade _ _ => false

def Command.document (c : Command) (session : Grading.Session) (input : String) : Json :=
  match c with
  | .grade latex parameters => (session.grade latex parameters).1.toJson
  | .compare solution response parameters =>
    let response := if response = "-" then input else response
    (session.compareAnswers solution response parameters).1.toJson

/-- What a request ends with. A run without a seed takes the words given. -/
def Request.respond (r : Request) (configText : Option String) (input : String)
    (unseeded : Words) : Response :=
  match r.settings configText with
  | .error _ => configError
  | .ok settings =>
    let words := match settings.seed with
      | some seed => Words.ofSeed (UInt64.ofNat seed)
      | none => unseeded
    ⟨0, (r.command.document (.start words settings) input).pretty ++ "\n"⟩

end AnswerKey.CommandLine

import AnswerKey.Answer
import AnswerKey.Evaluation
import AnswerKey.Expr.Printer

/-! What reading and evaluating one answer gives, member by member. -/
namespace AnswerKey.Grading

inductive Reported where
  | real (x : Double)
  | complex (text : String)

namespace Reported

def ofValue : Value → Reported
  | .real x => real x
  | .complex z => complex (Value.complex z).text

def toValue : Reported → Except Value.FormatError Value
  | real x => .ok (.real x)
  | complex text => Value.ofText text

def text : Reported → String
  | real x => Decimal.plain x
  | complex text => text

end Reported

/-- The outcome of one answer. The lists have one slot for each member, except
that there are no results where no member has a value. -/
structure Outcome where
  success : Bool
  errorMessage : Option String
  sources : List String
  expressions : List (Option String)
  canonical : List (Option String)
  parameters : List (String × Double)
  results : List (Option Reported)

def Outcome.failure (message : String) (parameters : List (String × Double)) : Outcome :=
  ⟨false, some message, [], [], [], parameters, []⟩

structure Rendering where
  expression : String
  canonical : String

structure MemberOutcome where
  source : String
  rendering : Option Rendering
  result : Except String Value

def finiteValue (v : Evaluated Value) : Except String Value :=
  match v with
  | .error e => .error e.message
  | .ok v => if v.isFinite then .ok v else .error ("result " ++ v.text ++ " is not finite")

def MemberOutcome.ofMember (binding : Binding) (options : Evaluation.Options) (m : Member) :
    MemberOutcome :=
  match m.expr with
  | .error e => ⟨m.source, none, .error e.message⟩
  | .ok x =>
    ⟨m.source, some ⟨x.render, (x.substitute binding.get?).render⟩,
      finiteValue (x.evaluate binding options)⟩

namespace Outcome

/-- The failures of members counted from `index`. Of several members each is
named by its number. -/
def messages (single : Bool) (index : Nat) : List MemberOutcome → List String
  | [] => []
  | m :: rest =>
    match m.result with
    | .ok _ => messages single (index + 1) rest
    | .error message =>
      (if single then message else "member " ++ toString (index + 1) ++ ": " ++ message) ::
        messages single (index + 1) rest

def reported (m : MemberOutcome) : Option Reported :=
  match m.result with
  | .ok v => some (.ofValue v)
  | .error _ => none

def ofMembers (parameters : List (String × Double)) (members : List MemberOutcome) : Outcome :=
  let failures := messages (members.length == 1) 0 members
  let results := members.map reported
  { success := failures.isEmpty
    errorMessage := if failures.isEmpty then none else some (Text.join "; " failures)
    sources := members.map (·.source)
    expressions := members.map fun m => m.rendering.map (·.expression)
    canonical := members.map fun m => m.rendering.map (·.canonical)
    parameters := parameters
    results := if results.all Option.isNone then [] else results }

/-- Reads an answer and evaluates every member under a binding, whose names
count as declared. -/
def ofAnswer (binding : Binding) (options : Evaluation.Options) (latex : String) : Outcome :=
  match Answer.read binding.names latex with
  | .error e => failure e.message binding.entries
  | .ok members => ofMembers binding.entries (members.map (MemberOutcome.ofMember binding options))

end Outcome

end AnswerKey.Grading

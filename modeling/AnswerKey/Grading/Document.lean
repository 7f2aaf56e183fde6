import AnswerKey.Grading.Comparison
import AnswerKey.Json.Number
import AnswerKey.Json.Reader

/-! Outcomes, verdicts and settings as JSON documents. -/
namespace AnswerKey

namespace Json

def bool? : Json → Option Bool
  | bool b => some b
  | _ => none

def text? : Json → Option String
  | string s => s
  | _ => none

def double : Json → Option Double
  | number lexeme => double? lexeme
  | _ => none

def natural : Json → Option Nat
  | number lexeme => natural? lexeme
  | _ => none

def optional? {α : Type} (read : Json → Option α) : Json → Option (Option α)
  | null => some none
  | j => (read j).map some

def list? {α : Type} (read : Json → Option α) : Json → Option (List α)
  | array items => items.mapM read
  | _ => none

def valuesOf (key : String) (entries : List (Option String × Json)) : List Json :=
  (entries.filter fun e => e.1 == some key).map (·.2)

/-- The value of a field, which must not stand twice. -/
def field? (key : String) (entries : List (Option String × Json)) : Option (Option Json) :=
  match valuesOf key entries with
  | [] => some none
  | [j] => some (some j)
  | _ => none

/-- What a record does with keys that it does not know, and with too short a
list of values. -/
inductive Strictness where
  | unknownIgnored
  | missingAllowed
  deriving DecidableEq

def knows (names : List String) (e : Option String × Json) : Bool :=
  match e.1 with
  | some key => names.contains key
  | none => false

/-- The fields of a record, in order. A record is an object, or a list of the
values of its fields. -/
def fields? (strictness : Strictness) (names : List String) : Json → Option (List (Option Json))
  | object entries =>
    if entries.any (fun e => e.1.isNone) then none
    else if strictness = .missingAllowed && !entries.all (knows names) then none
    else names.mapM fun name => field? name entries
  | array items =>
    if items.length = names.length || (strictness = .missingAllowed && items.length < names.length)
    then some ((items.map some ++ names.map fun _ => none).take names.length)
    else none
  | _ => none

def required {α : Type} (read : Json → Option α) (j : Option Json) : Option α := j.bind read

def nullable {α : Type} (read : Json → Option α) (j : Option Json) : Option (Option α) :=
  match j with
  | none => some none
  | some j => optional? read j

def defaulting {α : Type} (read : Json → Option α) (value : α) (j : Option Json) : Option α :=
  match j with
  | none => some value
  | some j => read j

end Json

namespace Grading

def Reported.toJson : Reported → Json
  | real x => Json.ofDouble x
  | complex text => Json.text text

def Reported.ofJson? : Json → Option Reported
  | .number lexeme => (Json.double? lexeme).map real
  | .string s => s.map complex
  | _ => none

def parametersToJson (parameters : List (String × Double)) : Json :=
  .record (parameters.map fun (name, x) => (name, Json.ofDouble x))

/-- Entries in their order, repeated names included. -/
def parametersOfJson? : Json → Option (List (String × Double))
  | .object entries => entries.mapM fun (key, j) => do return (← key, ← j.double)
  | _ => none

def slotToJson (slot : Option Reported) : Json :=
  match slot with
  | some r => r.toJson
  | none => .null

namespace Outcome

def fieldNames : List String :=
  ["success", "error_message", "extracted_solutions", "intermediate_expressions",
   "canonical_expressions", "parameter_dict", "evaluation_results"]

def toJson (o : Outcome) : Json :=
  .record (fieldNames.zip
    [.bool o.success, Json.optionalText o.errorMessage, .array (o.sources.map Json.text),
     .array (o.expressions.map Json.optionalText), .array (o.canonical.map Json.optionalText),
     parametersToJson o.parameters, .array (o.results.map slotToJson)])

def ofJson? (j : Json) : Option Outcome := do
  match ← Json.fields? .unknownIgnored fieldNames j with
  | [success, message, sources, expressions, canonical, parameters, results] =>
    return {
      success := ← Json.required Json.bool? success
      errorMessage := ← Json.nullable Json.text? message
      sources := ← Json.required (Json.list? Json.text?) sources
      expressions := ← Json.required (Json.list? (Json.optional? Json.text?)) expressions
      canonical := ← Json.required (Json.list? (Json.optional? Json.text?)) canonical
      parameters := ← Json.required parametersOfJson? parameters
      results := ← Json.required (Json.list? (Json.optional? Reported.ofJson?)) results }
  | _ => none

end Outcome

namespace Verdict

def fieldNames : List String :=
  ["success", "is_equivalent", "error_message", "model_result", "solution_result"]

def toJson (v : Verdict) : Json :=
  .record (fieldNames.zip
    [.bool v.success, .bool v.isEquivalent, Json.optionalText v.errorMessage,
     v.model.toJson, v.solution.toJson])

def ofJson? (j : Json) : Option Verdict := do
  match ← Json.fields? .unknownIgnored fieldNames j with
  | [success, isEquivalent, message, model, solution] =>
    return {
      success := ← Json.required Json.bool? success
      isEquivalent := ← Json.required Json.bool? isEquivalent
      errorMessage := ← Json.nullable Json.text? message
      model := ← Json.required Outcome.ofJson? model
      solution := ← Json.required Outcome.ofJson? solution }
  | _ => none

end Verdict

namespace Settings

def fieldNames : List String :=
  ["tolerance", "quadrature_panels", "limit_steps", "max_series_terms", "seed"]

def toJson (s : Settings) : Json :=
  .record (fieldNames.zip
    [Json.ofDouble s.tolerance, Json.ofNatural s.options.quadraturePanels,
     Json.ofNatural s.options.limitSteps, Json.ofNatural s.options.maxSeriesTerms,
     match s.seed with
     | some n => Json.ofNatural n
     | none => .null])

/-- Reads settings. A missing field has its usual value; an unknown one is an
error. -/
def ofJson? (j : Json) : Option Settings := do
  let usual : Settings := {}
  match ← Json.fields? .missingAllowed fieldNames j with
  | [tolerance, panels, steps, terms, seed] =>
    return {
      tolerance := ← Json.defaulting Json.double usual.tolerance tolerance
      options := {
        quadraturePanels := ← Json.defaulting Json.natural usual.options.quadraturePanels panels
        limitSteps := ← Json.defaulting Json.natural usual.options.limitSteps steps
        maxSeriesTerms := ← Json.defaulting Json.natural usual.options.maxSeriesTerms terms }
      seed := ← Json.nullable Json.natural seed }
  | _ => none

inductive LoadError where
  | missing
  | malformed
  deriving DecidableEq

def LoadError.message : LoadError → String
  | missing => "cannot read config: No such file or directory (os error 2)"
  | malformed => "invalid config"

/-- The settings that a file holds; a file that is not there has no text. -/
def load (fileText : Option String) : Except LoadError Settings :=
  match fileText with
  | none => .error .missing
  | some text =>
    match (Json.read? text).bind ofJson? with
    | some s => .ok s
    | none => .error .malformed

end Settings

end Grading

end AnswerKey

import AnswerKey.Answer.Boxed
import AnswerKey.Declaration
import AnswerKey.Grading.Comparison

/-! Grading steps in a row. Each step that declares names draws their values
from one stream of words, from where the step before it stopped. -/
namespace AnswerKey.Grading

structure Session where
  words : Words
  taken : Nat
  settings : Settings

namespace Session

def start (words : Words) (settings : Settings) : Session := ⟨words, 0, settings⟩

/-- The names of a parameter text; a blank text declares none. -/
def declared (parameters : String) : Except Declaration.Error (List String) :=
  if parameters.toList.all Text.isBlank then .ok [] else Declaration.names parameters

def bind (s : Session) (parameters : String) : Except Declaration.Error Binding × Session :=
  match declared parameters with
  | .error e => (.error e, s)
  | .ok names =>
    let (binding, taken) := Binding.drawFrom s.words s.taken names
    (.ok binding, { s with taken })

def invalidParameters (e : Declaration.Error) : String := "invalid parameters: " ++ e.message

def grade (s : Session) (latex parameters : String) : Outcome × Session :=
  match s.bind parameters with
  | (.ok binding, next) => (Outcome.ofAnswer binding s.settings.options latex, next)
  | (.error e, next) => (Outcome.failure (invalidParameters e) [], next)

/-- Compares the answer in a response with a reference, both under the same
fresh values. -/
def compareAnswers (s : Session) (reference response parameters : String) : Verdict × Session :=
  match s.bind parameters with
  | (.ok binding, next) =>
    let solution := Outcome.ofAnswer binding s.settings.options reference
    let model := Outcome.ofAnswer binding s.settings.options (Answer.isolate response)
    (Verdict.ofOutcomes solution model s.settings.tolerance, next)
  | (.error e, next) => (Verdict.failure (invalidParameters e), next)

end Session

end AnswerKey.Grading

import AnswerKey.Grading.Outcome

/-! The settings of a grading run, and comparing the outcomes of a reference solution
and of a model response. -/
namespace AnswerKey.Grading

structure Settings where
  tolerance : Double := 1e-6
  options : Evaluation.Options := {}
  /-- The seed of the drawn values, if they are to be the same in every run. -/
  seed : Option Nat := none

inductive Mismatch where
  | solutionFailed (message : String)
  | modelFailed (message : String)
  | malformedNumber (e : Value.FormatError)
  | countMismatch (solution model : Nat)
  | valueMismatch (index : Nat) (solution model : Value)

namespace Mismatch

/-- Whether both answers have values, so that they could be compared. -/
def compared : Mismatch → Bool
  | countMismatch _ _ | valueMismatch _ _ _ => true
  | _ => false

def message : Mismatch → String
  | solutionFailed m => "Failed to evaluate reference solution: " ++ m
  | modelFailed m => "Failed to evaluate model response: " ++ m
  | malformedNumber e => e.message
  | countMismatch solution model =>
    "reference solution has " ++ toString solution ++
      (if solution = 1 then " result" else " results") ++
      ", model response has " ++ toString model
  | valueMismatch index solution model =>
    "result " ++ toString (index + 1) ++ " differs: reference solution gives " ++
      solution.text ++ ", model response gives " ++ model.text

end Mismatch

def Outcome.failureMessage (o : Outcome) : String := o.errorMessage.getD "no result"

/-- The value of a slot; an empty one counts as malformed. -/
def slotValue : Option Reported → Except Mismatch Value
  | some r => r.toValue.mapError .malformedNumber
  | none => .error (.malformedNumber ⟨"null"⟩)

def slotValues : List (Option Reported) → Except Mismatch (List Value)
  | [] => .ok []
  | r :: rest => do
    let v ← slotValue r
    return v :: (← slotValues rest)

def firstDifference (tolerance : Double) (index : Nat) :
    List Value → List Value → Option Mismatch
  | a :: as, b :: bs =>
    if a.approxEq tolerance b then firstDifference tolerance (index + 1) as bs
    else some (.valueMismatch index a b)
  | _, _ => none

def compare (solution model : Outcome) (tolerance : Double) : Except Mismatch Unit :=
  if !solution.success then
    .error (.solutionFailed solution.failureMessage)
  else if !model.success then
    .error (.modelFailed model.failureMessage)
  else do
    let as ← slotValues solution.results
    let bs ← slotValues model.results
    if as.length ≠ bs.length then
      throw (.countMismatch as.length bs.length)
    match firstDifference tolerance 0 as bs with
    | some m => throw m
    | none => return ()

structure Verdict where
  /-- Whether a comparison was carried out. -/
  success : Bool
  isEquivalent : Bool
  errorMessage : Option String
  model : Outcome
  solution : Outcome

def Verdict.ofOutcomes (solution model : Outcome) (tolerance : Double) : Verdict :=
  match compare solution model tolerance with
  | .ok () => ⟨true, true, none, model, solution⟩
  | .error m => ⟨m.compared, false, some m.message, model, solution⟩

def Verdict.failure (message : String) : Verdict :=
  let failed := Outcome.failure message []
  ⟨false, false, some message, failed, failed⟩

end AnswerKey.Grading

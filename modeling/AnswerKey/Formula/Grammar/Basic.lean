import AnswerKey.Formula
import AnswerKey.Formula.Cursor

/-! Readings of a formula, and the record of rules that call one another. -/
namespace AnswerKey.Grammar

/-- Why a reading ends without a formula: the tokens are refused at some place,
or the allowed depth is used up. -/
inductive Failure where
  | refused (e : SyntaxError)
  | exhausted

abbrev Attempt := Except Failure

instance : MonadLift (Except SyntaxError) Attempt := ⟨Except.mapError .refused⟩

def refuse {α : Type} (c : Cursor) (expected : Expected) : Attempt α :=
  .error (.refused (c.errorAt expected))

structure Mode where
  /-- A function's argument without brackets: it stops at an operator, a group,
  another function or a blank. -/
  bareArgument : Bool := false
  insideBars : Bool := false
  /-- A limit's target, which leaves a sign for the side alone. -/
  limitTarget : Bool := false

def Mode.plain : Mode := {}

def Mode.bars : Mode := { insideBars := true }

inductive Exponent where
  | value (x : Formula)
  | dagger
  | prime

structure Rules where
  /-- Declared names, which are never read as functions. -/
  declared : List String
  sum : Mode → Cursor → Attempt (Formula × Cursor)
  sumTail : Mode → Formula → Cursor → Attempt (Formula × Cursor)
  signedTerm : Mode → Cursor → Attempt (Formula × Cursor)
  termTail : Mode → Formula → Cursor → Attempt (Formula × Cursor)
  signedFactor : Mode → Cursor → Attempt (Formula × Cursor)
  factorTail : Mode → Formula → Cursor → Attempt (Formula × Cursor)
  exponent : Cursor → Attempt (Exponent × Cursor)
  /-- Arguments after an opened bracket, up to and with its end. -/
  arguments : Delimiter → Cursor → Attempt (List Formula × Cursor)

def callable (declared : List String) (name : String) : Bool :=
  !declared.contains name && (Constant.ofName? name).isNone

end AnswerKey.Grammar

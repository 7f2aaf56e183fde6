import AnswerKey.Evaluation.Error
import AnswerKey.Expr.Scope
import AnswerKey.Keystream

/-! Values of declared names, given or drawn from a stream of words. -/
namespace AnswerKey

structure Binding where
  entries : List (String × Double)

namespace Binding

def get? (b : Binding) (name : String) : Option Double := b.entries.lookup name

def names (b : Binding) : List String := b.entries.map (·.1)

def keepFirst (entry : String × Double) (others : List (String × Double)) :
    List (String × Double) :=
  entry :: others.filter fun other => other.1 ≠ entry.1

/-- Binds names to given values. Of a repeated name the first value counts. -/
def ofList (entries : List (String × Double)) : Binding := ⟨entries.foldr keepFirst []⟩

def fixedName : String := "x"

def fixedValue : Double := 2

/-- The number in `[1, 2)` whose fraction is the upper 52 bits of a word. -/
def unitDraw (w : UInt64) : Double :=
  Double.encode false (Nat.pow 2 Double.fractionBits + w.toNat / Nat.pow 2 12)
    (-(Double.fractionBits : Int))

def drawOne (words : Words) (taken : Nat) (name : String) : Double × Nat :=
  if name = fixedName then (fixedValue, taken) else (unitDraw (words taken), taken + 1)

/-- Draws values for the names that have not been seen yet, each one from where the
one before it stopped. -/
def drawEach (words : Words) (seen : List String) (taken : Nat) :
    List String → List (String × Double) × Nat
  | [] => ([], taken)
  | name :: rest =>
    if name ∈ seen then
      drawEach words seen taken rest
    else
      let (value, taken) := drawOne words taken name
      let (entries, taken) := drawEach words (name :: seen) taken rest
      ((name, value) :: entries, taken)

/-- Draws values for names, once for each, in order of first occurrence, and tells
how many words are taken after that. -/
def drawFrom (words : Words) (taken : Nat) (names : List String) : Binding × Nat :=
  let (entries, taken) := drawEach words [] taken names
  (ofList entries, taken)

def draw (words : Words) (taken : Nat) (names : List String) : Binding :=
  (drawFrom words taken names).1

/-- Fails on the least free name that is neither bound nor a constant. -/
def check (b : Binding) (x : Expr) : Evaluated Unit :=
  match x.freeSymbols.find? fun name => (b.get? name).isNone && (Constant.ofName? name).isNone with
  | some name => .error (.unknownParameter name)
  | none => .ok ()

end Binding

end AnswerKey

import AnswerKey.Expr
import AnswerKey.Formula
import AnswerKey.Decimal.Numeral

/-! The expression that a formula stands for. Implicit products become
products, and the differential of an integral becomes its bound name. -/
namespace AnswerKey

inductive Unsupported where
  | number (digits : String)
  | derivative
  | partialDerivative
  | looseDifferential
  | missingDifferential
  | innerDifferential
  | argumentCount (f : Builtin) (count : Nat)
  deriving DecidableEq

def Unsupported.construct : Unsupported → String
  | number digits => "number '" ++ digits ++ "'"
  | derivative => "derivative"
  | partialDerivative => "partial derivative"
  | looseDifferential => "differential outside an integral"
  | missingDifferential => "integral without a differential"
  | innerDifferential => "differential inside an integrand"
  | argumentCount f count =>
    f.name ++ " with " ++ toString count ++ (if count = 1 then " argument" else " arguments")

def Unsupported.message (u : Unsupported) : String := "unsupported construct: " ++ u.construct

namespace Formula

/-- Whether a differential stands among the terms and factors of a formula.
Fractions, roots, arguments and bodies are not looked into. -/
def containsDifferential : Formula → Bool
  | differential _ _ => true
  | binary _ l r | juxtaposed _ l r | relation _ l r | power l r =>
    l.containsDifferential || r.containsDifferential
  | negated x | group x | dagger x | factorial x => x.containsDifferential
  | _ => false

def isBracedDifferential : Formula → Bool
  | group x => x.isDifferential
  | _ => false

def ungrouped : Formula → Formula
  | group x => x
  | x => x

/-- Neighbours of which one is a braced differential lose their braces. -/
def ungroupedPair (left right : Formula) : Formula × Formula :=
  if left.isBracedDifferential || right.isBracedDifferential then
    (left.ungrouped, right.ungrouped)
  else
    (left, right)

/-- The integrand of a body that is a product of two factors, with the name of
the differential; a differential on the right is preferred. -/
def splitPair (left right : Formula) : Except Unsupported (Formula × String) :=
  match left, right with
  | integrand, differential (some name) false => .ok (integrand, name)
  | differential (some name) false, integrand => .ok (integrand, name)
  | _, _ =>
    .error (if left.containsDifferential || right.containsDifferential then .innerDifferential
      else .missingDifferential)

def splitDifferential : Formula → Except Unsupported (Formula × String)
  | differential (some name) false => .ok (number "1", name)
  | group x => if x.containsDifferential then x.splitDifferential else .error .missingDifferential
  | juxtaposed _ l r =>
    let (left, right) := ungroupedPair l r
    splitPair left right
  | fraction n d => do
    let (numerator, name) ← n.splitDifferential
    return (fraction numerator d, name)
  | _ => .error .missingDifferential

mutual

def size : Formula → Nat
  | number _ | symbol _ | infinity | differential _ _ => 1
  | binary _ l r | juxtaposed _ l r | power l r | fraction l r | binomial l r
  | relation _ l r => size l + size r + 1
  | negated x | dagger x | group x | factorial x | primed x => size x + 1
  | root index x => sizeOption index + size x + 1
  | apply _ args _ | call _ args => sizeAll args + 1
  | powered _ e args => size e + sizeAll args + 1
  | aggregate _ _ lower upper body => size lower + size upper + size body + 1
  | integral lower upper body => sizeOption lower + sizeOption upper + size body + 1
  | limit _ approach _ body => size approach + size body + 1

def sizeAll : List Formula → Nat
  | [] => 0
  | x :: rest => size x + sizeAll rest + 1

def sizeOption : Option Formula → Nat
  | none => 0
  | some x => size x + 1

end

theorem size_ungrouped_le (x : Formula) : x.ungrouped.size ≤ x.size := by
  cases x <;> simp [ungrouped, size]

theorem size_of_splitPair {left right x : Formula} {name : String}
    (h : splitPair left right = .ok (x, name)) : x.size ≤ left.size ∨ x.size ≤ right.size := by
  unfold splitPair at h
  split at h
  · simp only [Except.ok.injEq, Prod.mk.injEq] at h
    exact .inl (h.1 ▸ Nat.le_refl _)
  · simp only [Except.ok.injEq, Prod.mk.injEq] at h
    exact .inr (h.1 ▸ Nat.le_refl _)
  · simp at h

theorem size_of_splitDifferential {body x : Formula} {name : String}
    (h : body.splitDifferential = .ok (x, name)) : x.size ≤ body.size := by
  fun_induction splitDifferential body generalizing x name with
  | case1 => simp only [Except.ok.injEq, Prod.mk.injEq] at h; simp [← h.1, size]
  | case2 y _ ih => have := ih h; simp only [size]; omega
  | case3 => simp at h
  | case4 _ l r left right hp =>
    have hl := size_ungrouped_le l
    have hr := size_ungrouped_le r
    have hp' : left.size ≤ l.size ∧ right.size ≤ r.size := by
      unfold ungroupedPair at hp
      split at hp <;> simp only [Prod.mk.injEq] at hp <;> obtain ⟨rfl, rfl⟩ := hp <;> omega
    have := size_of_splitPair h
    simp only [size]
    omega
  | case5 n d ih =>
    cases hn : n.splitDifferential with
    | error e => simp [hn, bind, Except.bind] at h
    | ok r =>
      obtain ⟨y, v⟩ := r
      simp only [hn, bind, Except.bind, pure, Except.pure, Except.ok.injEq, Prod.mk.injEq] at h
      have := ih hn
      simp only [← h.1, size]
      omega
  | case6 => simp at h

def checkCount (f : Builtin) (count : Nat) : Except Unsupported Unit :=
  if f.accepts count then .ok () else .error (.argumentCount f count)

def isDerivative (numerator denominator : Formula) : Bool :=
  (match numerator with
    | differential none _ => true
    | _ => false) || denominator.containsDifferential

mutual

def toExpr : Formula → Except Unsupported Expr
  | number digits =>
    match Decimal.read? digits.toList with
    | some x => .ok (.number x)
    | none => .error (.number digits)
  | symbol name => .ok (.symbol name)
  | infinity => .ok (.number (Double.infinity false))
  | binary op l r => do return .binary op (← toExpr l) (← toExpr r)
  | juxtaposed _ l r => do return .binary .mul (← toExpr l) (← toExpr r)
  | negated x => do return .negated (← toExpr x)
  | power b e => do return .power (← toExpr b) (← toExpr e)
  | dagger x => do return .apply .conjugate [← toExpr x]
  | group x => do return .group (← toExpr x)
  | fraction n d =>
    if isDerivative n d then .error .derivative
    else do return .fraction (← toExpr n) (← toExpr d)
  | binomial t b => do return .binomial (← toExpr t) (← toExpr b)
  | root index x => do
    let radicand ← toExpr x
    let index ← optionToExpr index
    return .apply .sqrt (radicand :: index.toList)
  | apply f args _ => do
    checkCount f args.length
    return .apply f (← listToExpr args)
  | call name args =>
    match Builtin.ofName? name with
    | some f => do
      checkCount f args.length
      return .apply f (← listToExpr args)
    | none => do return .call name (← listToExpr args)
  | powered f e args => do
    checkCount f args.length
    let exponent ← toExpr e
    return .powered f exponent (← listToExpr args)
  | factorial x => do return .factorial (← toExpr x)
  | primed _ => .error .derivative
  | differential _ isPartial =>
    .error (if isPartial then .partialDerivative else .looseDifferential)
  | aggregate kind name lower upper body => do
    let lower ← toExpr lower
    let upper ← toExpr upper
    return .aggregate kind name lower upper (← toExpr body)
  | integral lower upper body =>
    match _h : body.splitDifferential with
    | .error u => .error u
    | .ok (x, name) => do
      let lower ← optionToExpr lower
      let upper ← optionToExpr upper
      return .integral lower upper (← toExpr x) name
  | limit name approach side body => do
    let approach ← toExpr approach
    return .limit name approach side (← toExpr body)
  | relation r left right => do return .relation r (← toExpr left) (← toExpr right)
termination_by x => x.size
decreasing_by
  all_goals simp only [size]
  any_goals omega
  have := size_of_splitDifferential _h
  omega

def listToExpr : List Formula → Except Unsupported (List Expr)
  | [] => .ok []
  | x :: rest => do
    let first ← toExpr x
    return first :: (← listToExpr rest)
termination_by xs => sizeAll xs
decreasing_by all_goals simp only [sizeAll]; omega

def optionToExpr : Option Formula → Except Unsupported (Option Expr)
  | none => .ok none
  | some x => do return some (← toExpr x)
termination_by x => sizeOption x
decreasing_by all_goals simp only [sizeOption]; omega

end

end Formula

end AnswerKey

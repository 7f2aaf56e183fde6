/-! Operations and relations, and the constants and functions known by name. -/
namespace AnswerKey

inductive Operation where
  | add | sub | mul | div
  deriving DecidableEq, Repr

inductive Aggregate where
  | sum | product
  deriving DecidableEq, Repr

inductive Side where
  | above | below
  deriving DecidableEq, Repr

inductive Relation where
  | equal | notEqual | less | lessEqual | greater | greaterEqual
  deriving DecidableEq, Repr

def Relation.sign : Relation → String
  | .equal => "="
  | .notEqual => "!="
  | .less => "<"
  | .lessEqual => "<="
  | .greater => ">"
  | .greaterEqual => ">="

inductive Constant where
  | e | pi | i
  deriving DecidableEq, Repr

/-- A declared name hides the constant of that name. -/
def Constant.ofName? : String → Option Constant
  | "e" => some .e
  | "pi" => some .pi
  | "i" => some .i
  | _ => none

inductive Builtin where
  | sin | cos | tan | sec | csc | cot
  | sinh | cosh | tanh | sech | csch | coth
  | asin | acos | atan | asec | acsc | acot
  | asinh | acosh | atanh | asech | acsch | acoth
  | log | ln | lg | exp | sqrt | abs | floor | ceil | conjugate
  | min | max | gamma | bra | ket | innerProduct
  deriving DecidableEq, Repr

namespace Builtin

def all : List Builtin :=
  [sin, cos, tan, sec, csc, cot, sinh, cosh, tanh, sech, csch, coth,
   asin, acos, atan, asec, acsc, acot, asinh, acosh, atanh, asech, acsch, acoth,
   log, ln, lg, exp, sqrt, abs, floor, ceil, conjugate, min, max, gamma,
   bra, ket, innerProduct]

theorem mem_all (f : Builtin) : f ∈ all := by cases f <;> decide

def name : Builtin → String
  | sin => "sin" | cos => "cos" | tan => "tan" | sec => "sec" | csc => "csc" | cot => "cot"
  | sinh => "sinh" | cosh => "cosh" | tanh => "tanh"
  | sech => "sech" | csch => "csch" | coth => "coth"
  | asin => "asin" | acos => "acos" | atan => "atan"
  | asec => "asec" | acsc => "acsc" | acot => "acot"
  | asinh => "asinh" | acosh => "acosh" | atanh => "atanh"
  | asech => "asech" | acsch => "acsch" | acoth => "acoth"
  | log => "log" | ln => "ln" | lg => "lg" | exp => "exp" | sqrt => "sqrt"
  | abs => "abs" | floor => "floor" | ceil => "ceil" | conjugate => "conjugate"
  | min => "min" | max => "max" | gamma => "Gamma"
  | bra => "bra" | ket => "ket" | innerProduct => "braket"

def aliases : Builtin → List String
  | csc => ["cosec"]
  | asin => ["arcsin"] | acos => ["arccos"] | atan => ["arctan"]
  | asec => ["arcsec"] | acsc => ["arccsc"] | acot => ["arccot"]
  | asinh => ["arsinh", "arcsinh"] | acosh => ["arcosh", "arccosh"]
  | atanh => ["artanh", "arctanh"] | asech => ["arsech", "arcsech"]
  | acsch => ["arcsch", "arccsch"] | acoth => ["arcoth", "arccoth"]
  | ceil => ["ceiling"]
  | conjugate => ["conj", "overline", "bar"]
  | _ => []

def ofName? (s : String) : Option Builtin :=
  all.find? fun f => s == f.name || f.aliases.contains s

/-- The function that a written exponent `-1` turns this one into. -/
def inverse? : Builtin → Option Builtin
  | sin => some asin | cos => some acos | tan => some atan
  | sec => some asec | csc => some acsc | cot => some acot
  | sinh => some asinh | cosh => some acosh | tanh => some atanh
  | sech => some asech | csch => some acsch | coth => some acoth
  | _ => none

def minArgs : Builtin → Nat
  | innerProduct => 2
  | _ => 1

def maxArgs : Builtin → Option Nat
  | log | sqrt | innerProduct => some 2
  | min | max => none
  | _ => some 1

def accepts (f : Builtin) (count : Nat) : Bool :=
  f.minArgs ≤ count && (match f.maxArgs with | some n => count ≤ n | none => true)

def takesBareArgument : Builtin → Bool
  | min | max | innerProduct => false
  | _ => true

end Builtin

end AnswerKey

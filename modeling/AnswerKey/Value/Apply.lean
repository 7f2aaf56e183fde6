import AnswerKey.Value.Gamma

/-! Functions applied to values. -/
namespace AnswerKey

namespace Value

def realArgument (f : Builtin) : Value → Evaluated Double
  | real x => .ok x
  | complex _ => .error (.domain (.complexArgument f))

def sin : Value → Value := lift Double.sin Complex.sin
def cos : Value → Value := lift Double.cos Complex.cos
def tan : Value → Value := lift Double.tan Complex.tan
def sinh : Value → Value := lift Double.sinh Complex.sinh
def cosh : Value → Value := lift Double.cosh Complex.cosh
def tanh : Value → Value := lift Double.tanh Complex.tanh
def atan : Value → Value := lift Double.atan Complex.atan
def exp : Value → Value := lift Double.exp Complex.exp

def conjugate (a : Value) : Value := ofComplex a.toComplex.conj

def extremum (f : Builtin) (pick : Double → Double → Double) : List Value → Evaluated Value
  | [] => .error (.domain (.noArguments f))
  | a :: rest => do
    let first ← realArgument f a
    let best ← rest.foldlM (fun best b => do return pick best (← realArgument f b)) first
    return real best

end Value

open Value in
def Builtin.applyTo (f : Builtin) (a : Value) (second : Option Value) (all : List Value) :
    Evaluated Value :=
  match f with
  | sin => .ok a.sin
  | cos => .ok a.cos
  | tan => .ok a.tan
  | sec => reciprocal a.cos
  | csc => reciprocal a.sin
  | cot => divide a.cos a.sin
  | sinh => .ok a.sinh
  | cosh => .ok a.cosh
  | tanh => .ok a.tanh
  | sech => reciprocal a.cosh
  | csch => reciprocal a.sinh
  | coth => divide a.cosh a.sinh
  | asin => .ok a.asin
  | acos => .ok a.acos
  | atan => .ok a.atan
  | asec => do return (← reciprocal a).acos
  | acsc => do return (← reciprocal a).asin
  | acot => .ok a.acot
  | asinh => .ok a.asinh
  | acosh => .ok a.acosh
  | atanh => a.atanh
  | asech => do return (← reciprocal a).acosh
  | acsch => do return (← reciprocal a).asinh
  | acoth => do (← reciprocal a).atanh
  | log =>
    match second with
    | some base => do
      let x ← a.ln
      divide x (← base.ln)
    | none => a.ln
  | ln => a.ln
  | lg => a.lg
  | exp => .ok a.exp
  | sqrt =>
    match second with
    | some index => do power a (← reciprocal index)
    | none => .ok a.sqrt
  | abs => .ok (real a.magnitude)
  | floor => do return real (← realArgument .floor a).floor
  | ceil => do return real (← realArgument .ceil a).ceil
  | conjugate | bra => .ok a.conjugate
  | ket => .ok a
  | innerProduct =>
    match second with
    | some b => .ok (multiply a.conjugate b)
    | none => .error (.valueless (.ofOneArgument .innerProduct))
  | min => extremum .min Double.smaller all
  | max => extremum .max Double.larger all
  | gamma => a.gamma

/-- A function applied to evaluated arguments. Arguments past those that it
reads are ignored. -/
def Builtin.apply (f : Builtin) (args : List Value) : Evaluated Value :=
  match args with
  | [] => .error (.valueless (.withoutArguments f))
  | a :: rest => f.applyTo a rest.head? args

end AnswerKey

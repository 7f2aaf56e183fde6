import AnswerKey.Evaluation

/-! Which errors the operations of an evaluation can end in. -/
namespace AnswerKey

def FailsOnly (E : EvaluationError → Prop) {α : Type} (a : Evaluated α) : Prop :=
  ∀ e, a = .error e → E e

def EvaluationError.IsArithmetic : EvaluationError → Prop
  | .domain (.noArguments _) => False
  | .divisionByZero | .domain _ => True
  | .unknownParameter _ | .valueless _ => False

def EvaluationError.IsApplication : EvaluationError → Prop
  | .divisionByZero | .domain _ | .valueless (.withoutArguments _)
  | .valueless (.ofOneArgument _) => True
  | _ => False

theorem EvaluationError.IsArithmetic.isApplication {e : EvaluationError} (h : e.IsArithmetic) :
    e.IsApplication := by
  cases e with
  | divisionByZero | domain _ => trivial
  | unknownParameter _ | valueless _ => exact h.elim

namespace FailsOnly

variable {E E' : EvaluationError → Prop} {α β : Type} {a : Evaluated α}

theorem ok (x : α) : FailsOnly E (.ok x : Evaluated α) := fun _ h => nomatch h

theorem error {e : EvaluationError} (h : E e) : FailsOnly E (.error e : Evaluated α) := by
  intro e' he
  obtain rfl := Except.error.inj he
  exact h

theorem mono (h : FailsOnly E a) (hE : ∀ e, E e → E' e) : FailsOnly E' a :=
  fun e he => hE e (h e he)

theorem bind {f : α → Evaluated β} (h : FailsOnly E a) (hf : ∀ x, FailsOnly E (f x)) :
    FailsOnly E (a >>= f) := by
  cases a with
  | error e => exact .error (h e rfl)
  | ok x => exact hf x

theorem map {f : α → β} (h : FailsOnly E a) : FailsOnly E (a.map f) := by
  cases a with
  | error e => exact .error (h e rfl)
  | ok x => exact .ok _

theorem foldlM {f : β → α → Evaluated β} {xs : List α} {y : β}
    (hf : ∀ y x, FailsOnly E (f y x)) : FailsOnly E (xs.foldlM f y) := by
  induction xs generalizing y with
  | nil => exact .ok y
  | cons x rest ih =>
    rw [List.foldlM_cons]
    exact (hf y x).bind fun _ => ih

end FailsOnly

namespace Value

open EvaluationError (IsArithmetic)

variable (a b : Value)

theorem divide_fails : FailsOnly IsArithmetic (divide a b) := by
  unfold divide
  split
  · exact .error trivial
  · split <;> exact .ok _

theorem reciprocal_fails : FailsOnly IsArithmetic (reciprocal a) := divide_fails _ a

theorem power_fails : FailsOnly IsArithmetic (power a b) := by
  unfold power
  split
  · split
    · exact .error trivial
    · split <;> exact .ok _
  · simp only
    split
    · split
      · exact .ok _
      · exact .error trivial
    · exact .ok _

theorem ln_fails : FailsOnly IsArithmetic (ln a) := by
  cases a with
  | real x =>
    simp only [ln]
    split
    · exact .ok _
    · split
      · exact .ok _
      · exact .error trivial
  | complex z =>
    simp only [ln]
    split
    · exact .ok _
    · exact .error trivial

theorem atanh_fails : FailsOnly IsArithmetic (atanh a) := by
  cases a with
  | real x =>
    simp only [atanh]
    split
    · exact .ok _
    · split
      · exact .error trivial
      · exact .ok _
  | complex z => exact .ok _

theorem lg_fails : FailsOnly IsArithmetic (lg a) := by
  have viaLn : FailsOnly IsArithmetic (do divide (← ln a) (real lnTen)) :=
    (ln_fails a).bind fun _ => divide_fails _ _
  cases a with
  | real x =>
    simp only [lg]
    split
    · exact .ok _
    · exact viaLn
  | complex z => exact viaLn

theorem gamma_fails : FailsOnly IsArithmetic (gamma a) := by
  cases a with
  | real x =>
    simp only [gamma]
    split
    · exact .error trivial
    · split <;> exact .ok _
  | complex z => exact .ok _

theorem factorial_fails : FailsOnly IsArithmetic (factorial a) := by
  cases a with
  | real x =>
    simp only [factorial]
    split
    · exact .ok _
    · exact .error trivial
  | complex z => exact .error trivial

theorem binomialByGamma_fails (n k : Double) : FailsOnly IsArithmetic (binomialByGamma n k) :=
  (gamma_fails _).bind fun _ => (gamma_fails _).bind fun _ => (gamma_fails _).bind fun _ =>
    divide_fails _ _

theorem binomial_fails : FailsOnly IsArithmetic (binomial a b) := by
  unfold binomial
  split
  · split
    · exact .ok _
    · split
      · exact .ok _
      · exact binomialByGamma_fails _ _
    · exact binomialByGamma_fails _ _
  · exact .error trivial

theorem realArgument_fails (f : Builtin) : FailsOnly IsArithmetic (realArgument f a) := by
  cases a with
  | real x => exact .ok x
  | complex z => exact .error trivial

theorem extremum_fails (f : Builtin) (pick : Double → Double → Double) (v : Value)
    (rest : List Value) : FailsOnly IsArithmetic (extremum f pick (v :: rest)) := by
  refine (realArgument_fails v f).bind fun first => ?_
  refine .bind (.foldlM fun best w => ?_) fun best => .ok _
  exact (realArgument_fails w f).bind fun _ => .ok _

end Value

theorem Builtin.apply_fails_of_enough {f : Builtin} {args : List Value}
    (h : f.minArgs ≤ args.length) : FailsOnly EvaluationError.IsArithmetic (f.apply args) := by
  cases args with
  | nil => cases f <;> simp [minArgs] at h
  | cons a rest =>
    cases f with
    | sec | csc | sech | csch => exact Value.reciprocal_fails _
    | cot | coth => exact Value.divide_fails _ _
    | asec | acsc | asech | acsch => exact (Value.reciprocal_fails _).bind fun _ => .ok _
    | acoth => exact (Value.reciprocal_fails _).bind fun _ => Value.atanh_fails _
    | atanh => exact Value.atanh_fails _
    | ln => exact Value.ln_fails _
    | lg => exact Value.lg_fails _
    | gamma => exact Value.gamma_fails _
    | min => exact Value.extremum_fails .min Double.smaller a rest
    | max => exact Value.extremum_fails .max Double.larger a rest
    | floor | ceil => exact (Value.realArgument_fails _ _).bind fun _ => .ok _
    | log =>
      simp only [apply, applyTo]
      split
      · exact (Value.ln_fails _).bind fun _ => (Value.ln_fails _).bind fun _ =>
          Value.divide_fails _ _
      · exact Value.ln_fails _
    | sqrt =>
      simp only [apply, applyTo]
      split
      · exact (Value.reciprocal_fails _).bind fun _ => Value.power_fails _ _
      · exact .ok _
    | innerProduct =>
      cases rest with
      | nil => simp [minArgs] at h
      | cons b rest => exact .ok _
    | _ => exact .ok _

theorem Builtin.apply_fails (f : Builtin) (args : List Value) :
    FailsOnly EvaluationError.IsApplication (f.apply args) := by
  by_cases h : f.minArgs ≤ args.length
  · exact (apply_fails_of_enough h).mono fun _ => EvaluationError.IsArithmetic.isApplication
  · cases args with
    | nil => exact .error trivial
    | cons a rest =>
      cases f with
      | innerProduct =>
        cases rest with
        | nil => exact .error trivial
        | cons b rest => simp [minArgs] at h
      | _ => simp [minArgs] at h

namespace Evaluation

open EvaluationError (IsArithmetic)

theorem arithmetic_fails (op : Operation) (a b : Value) :
    FailsOnly IsArithmetic (arithmetic op a b) := by
  cases op with
  | add | sub | mul => exact .ok _
  | div => exact Value.divide_fails a b

theorem realAt_fails (place : RealPlace) (v : Value) : FailsOnly IsArithmetic (realAt place v) := by
  cases v with
  | real x =>
    simp only [realAt]
    split
    · exact .error trivial
    · exact .ok _
  | complex z => exact .error trivial

theorem integerBound_fails (v : Value) : FailsOnly IsArithmetic (integerBound v) := by
  refine (realAt_fails _ v).bind fun x => ?_
  split
  · exact .ok _
  · exact .error trivial

theorem finiteOr_fails (e : DomainError) (he : IsArithmetic (.domain e)) (v : Value) :
    FailsOnly IsArithmetic (finiteOr e v) := by
  unfold finiteOr
  split
  · exact .ok _
  · exact .error he

/-! What binds a name fails as its body does, or with an error of arithmetic. -/

section Bodies

variable {E : EvaluationError → Prop} {body : Value → Evaluated Value}

theorem aggregateFrom_fails {kind : Aggregate} {total : Value} {k : Int} {count : Nat}
    (hb : ∀ v, FailsOnly E (body v)) : FailsOnly E (aggregateFrom kind body total k count) := by
  induction count generalizing total k with
  | zero => exact .ok _
  | succ count ih => exact (hb _).bind fun _ => ih

theorem aggregate_fails {most : Nat} {kind : Aggregate} {lower upper : Int}
    (hE : ∀ e, IsArithmetic e → E e) (hb : ∀ v, FailsOnly E (body v)) :
    FailsOnly E (aggregate most kind lower upper body) := by
  unfold aggregate
  simp only
  split
  · exact .error (hE _ trivial)
  · exact aggregateFrom_fails hb

theorem quadrature_fails {panels : Nat} {a b : Double} {substitution : Double → Double × Double}
    {f : Double → Evaluated Complex} (hf : ∀ x, FailsOnly E (f x)) :
    FailsOnly E (quadrature panels a b substitution f) := by
  refine .foldlM fun total panel => .foldlM fun total node => ?_
  exact (hf _).bind fun _ => .ok _

theorem integralOver_fails {panels : Nat} {bounds : Bounds Double}
    {f : Double → Evaluated Complex} (hf : ∀ x, FailsOnly E (f x)) :
    FailsOnly E (integralOver panels bounds f) := by
  cases bounds with
  | between a b => exact quadrature_fails hf
  | above a => exact quadrature_fails hf
  | below b => exact quadrature_fails hf
  | everywhere =>
    exact (quadrature_fails hf).bind fun _ => (quadrature_fails hf).bind fun _ => .ok _

theorem integral_fails {panels : Nat} {a b : Double} (hb : ∀ v, FailsOnly E (body v)) :
    FailsOnly E (integral panels a b body) := by
  have hf (x : Double) : FailsOnly E ((body (.real x)).map Value.toComplex) := (hb _).map
  unfold integral
  simp only
  split
  · exact .ok _
  · split
    · exact (integralOver_fails hf).map
    · exact (integralOver_fails hf).map

theorem rowsFrom_fails {sample : Double → Evaluated Complex} {row : List Complex}
    {division : Double} {more : Nat} (hs : ∀ x, FailsOnly E (sample x)) :
    FailsOnly E (rowsFrom sample row division more) := by
  induction more generalizing row division with
  | zero => exact .ok _
  | succ more ih => exact (hs _).bind fun _ => ih

theorem oneSidedLimit_fails {steps : Nat} {target side : Double}
    (hE : ∀ e, IsArithmetic e → E e) (hb : ∀ v, FailsOnly E (body v)) :
    FailsOnly E (oneSidedLimit steps target side body) := by
  unfold oneSidedLimit
  simp only
  refine .bind (.map (rowsFrom_fails fun x => (hb _).map)) fun z? => ?_
  split
  · exact .ok _
  · exact .error (hE _ trivial)

theorem limit_fails {steps : Nat} {target : Double} {side : Option Side}
    (hE : ∀ e, IsArithmetic e → E e) (hb : ∀ v, FailsOnly E (body v)) :
    FailsOnly E (limit steps target side body) := by
  have hs (side : Double) : FailsOnly E (oneSidedLimit steps target side body) :=
    oneSidedLimit_fails hE hb
  unfold limit
  split
  · exact hs _
  · split
    · exact hs _
    · exact hs _
    · refine (hs _).bind fun above => (hs _).bind fun below => ?_
      split
      · exact .ok _
      · exact .error (hE _ trivial)

end Bodies

end Evaluation

end AnswerKey

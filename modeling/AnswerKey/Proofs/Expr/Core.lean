import AnswerKey.Proofs.Evaluation.Strays

/-! What the value of an expression depends on: not on its groups, nor on whether
a quotient is a fraction or a power is written on a function. -/
namespace AnswerKey

open Evaluation

namespace Expr

mutual

/-- The expression with one spelling for what is evaluated alike. -/
def core : Expr → Expr
  | number x => number x
  | symbol name => symbol name
  | binary op l r => binary op (core l) (core r)
  | negated x => negated (core x)
  | power b e => power (core b) (core e)
  | group x => core x
  | fraction n d => binary .div (core n) (core d)
  | binomial t b => binomial (core t) (core b)
  | apply f args => apply f (coreAll args)
  | call name args => call name (coreAll args)
  | powered f e args => power (apply f (coreAll args)) (core e)
  | factorial x => factorial (core x)
  | aggregate kind name lower upper body =>
    aggregate kind name (core lower) (core upper) (core body)
  | integral lower upper integrand name =>
    integral (coreOption lower) (coreOption upper) (core integrand) name
  | limit name approach side body => limit name (core approach) side (core body)
  | relation r l x => relation r (core l) (core x)

def coreAll : List Expr → List Expr
  | [] => []
  | x :: rest => core x :: coreAll rest

def coreOption : Option Expr → Option Expr
  | none => none
  | some x => some (core x)

end

theorem coreAll_eq_map (xs : List Expr) : coreAll xs = xs.map core := by
  induction xs with
  | nil => rfl
  | cons x rest ih => rw [coreAll, ih, List.map_cons]

variable {b : Binding} {options : Options} {scopes : Scopes} {bound : List String}

theorem evalAll_core {xs : List Expr}
    (ih : ∀ x ∈ xs, x.core.eval b options scopes = x.eval b options scopes) :
    evalAll b options scopes (coreAll xs) = evalAll b options scopes xs := by
  induction xs with
  | nil => rfl
  | cons x rest ihr =>
    rw [coreAll, evalAll, evalAll, ih x List.mem_cons_self,
      ihr fun y hy => ih y (List.mem_cons_of_mem x hy)]

theorem eval_core (x : Expr) : x.core.eval b options scopes = x.eval b options scopes := by
  induction x using induct generalizing scopes with
  | number | symbol | call => rfl
  | binary _ _ _ hl hr | power _ _ hl hr | binomial _ _ hl hr =>
    rw [core, eval, eval, hl, hr]
  | fraction n d hn hd =>
    rw [core, eval, eval, hn, hd]
    rfl
  | negated _ hx | factorial _ hx => rw [core, eval, eval, hx]
  | group x hx =>
    rw [core, hx, eval]
  | apply f args ih => rw [core, eval, eval, evalAll_core fun x hx => @ih x hx scopes]
  | powered f e args he ih =>
    rw [core, eval, eval, eval, evalAll_core fun x hx => @ih x hx scopes, he, bind_assoc]
  | aggregate kind name lower upper body hl hu hb =>
    rw [core, eval, eval, hl, hu]
    simp only [hb]
  | integral lower upper integrand name hl hu hb =>
    cases lower with
    | none => rfl
    | some l =>
      cases upper with
      | none => rfl
      | some u =>
        rw [core, coreOption, coreOption, eval, eval, hl l rfl, hu u rfl]
        simp only [hb]
  | limit name approach side body ha hb =>
    rw [core, eval, eval, ha]
    simp only [hb]
  | relation => rfl

theorem mem_mentionsAll_core {m : Mention} {xs : List Expr}
    (ih : ∀ x ∈ xs, m ∈ x.core.mentions bound ↔ m ∈ x.mentions bound) :
    m ∈ mentionsAll bound (coreAll xs) ↔ m ∈ mentionsAll bound xs := by
  simp only [mem_mentionsAll, coreAll_eq_map, List.mem_map, exists_exists_and_eq_and]
  exact exists_congr fun x => and_congr_right fun hx => ih x hx

theorem mem_mentionsOption_core {m : Mention} {x? : Option Expr}
    (ih : ∀ x ∈ x?, m ∈ x.core.mentions bound ↔ m ∈ x.mentions bound) :
    m ∈ mentionsOption bound (coreOption x?) ↔ m ∈ mentionsOption bound x? := by
  cases x? with
  | none => rfl
  | some x => exact ih x rfl

theorem mem_mentions_core {m : Mention} (x : Expr) :
    m ∈ x.core.mentions bound ↔ m ∈ x.mentions bound := by
  induction x using induct generalizing bound with
  | number | symbol => rfl
  | binary _ _ _ hl hr | power _ _ hl hr | fraction _ _ hl hr | binomial _ _ hl hr
  | relation _ _ _ hl hr | limit _ _ _ _ hl hr =>
    simp only [core, mentions, List.mem_append, hl, hr]
  | negated _ hx | group _ hx | factorial _ hx => simp only [core, mentions, hx]
  | apply f args ih =>
    simp only [core, mentions]
    exact mem_mentionsAll_core fun x hx => ih x hx
  | call n args ih =>
    simp only [core, mentions, List.mem_cons]
    exact or_congr_right (mem_mentionsAll_core fun x hx => ih x hx)
  | powered f e args he ih =>
    -- The exponent is mentioned before the arguments or after them.
    simp only [core, mentions, List.mem_append, he]
    rw [mem_mentionsAll_core fun x hx => ih x hx, or_comm]
  | aggregate _ _ _ _ _ hl hu hb => simp only [core, mentions, List.mem_append, hl, hu, hb]
  | integral lower upper integrand name hl hu hb =>
    simp only [core, mentions, List.mem_append, hb]
    rw [mem_mentionsOption_core fun x hx => hl x hx, mem_mentionsOption_core fun x hx => hu x hx]

theorem strays_core {x : Expr} {name : String} : x.core.Strays b name ↔ x.Strays b name := by
  simp only [Strays, mem_mentions_core]

/-- Expressions with the same core are evaluated alike, the check of the names
before included. -/
theorem check_eval_congr {x y : Expr} (h : x.core = y.core) :
    (do b.check x; x.eval b options []) = (do b.check y; y.eval b options []) := by
  have hcheck : b.check x = b.check y := Binding.check_congr fun name => by
    rw [← strays_core, h, strays_core]
  rw [hcheck, ← eval_core x, h, eval_core y]

end Expr

end AnswerKey

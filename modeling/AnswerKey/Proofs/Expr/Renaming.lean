import AnswerKey.Proofs.Expr.Occurrence
import Mathlib.Logic.Function.Basic

/-! Renaming a bound name, with the symbols that it binds, at any place of an
expression. -/
namespace AnswerKey

open Function (update)

namespace Expr

mutual

def renameFree (ρ : String → String) : Expr → Expr
  | number x => number x
  | symbol name => symbol (ρ name)
  | binary op l r => binary op (renameFree ρ l) (renameFree ρ r)
  | negated x => negated (renameFree ρ x)
  | power b e => power (renameFree ρ b) (renameFree ρ e)
  | group x => group (renameFree ρ x)
  | fraction n d => fraction (renameFree ρ n) (renameFree ρ d)
  | binomial t b => binomial (renameFree ρ t) (renameFree ρ b)
  | apply f args => apply f (renameFreeAll ρ args)
  | call name args => call name (renameFreeAll ρ args)
  | powered f e args => powered f (renameFree ρ e) (renameFreeAll ρ args)
  | factorial x => factorial (renameFree ρ x)
  | aggregate kind name lower upper body =>
    aggregate kind name (renameFree ρ lower) (renameFree ρ upper)
      (renameFree (update ρ name name) body)
  | integral lower upper integrand name =>
    integral (renameFreeOption ρ lower) (renameFreeOption ρ upper)
      (renameFree (update ρ name name) integrand) name
  | limit name approach side body =>
    limit name (renameFree ρ approach) side (renameFree (update ρ name name) body)
  | relation r l x => relation r (renameFree ρ l) (renameFree ρ x)

def renameFreeAll (ρ : String → String) : List Expr → List Expr
  | [] => []
  | x :: rest => renameFree ρ x :: renameFreeAll ρ rest

def renameFreeOption (ρ : String → String) : Option Expr → Option Expr
  | none => none
  | some x => some (renameFree ρ x)

end

def binder? : Expr → Option (String × Expr)
  | aggregate _ name _ _ body | integral _ _ body name | limit name _ _ body => some (name, body)
  | _ => none

/-- Gives the bound name of an expression a new name, in its body too. -/
def rebind (new : String) : Expr → Expr
  | aggregate kind name lower upper body =>
    aggregate kind new lower upper (body.renameFree (update id name new))
  | integral lower upper integrand name =>
    integral lower upper (integrand.renameFree (update id name new)) new
  | limit name approach side body =>
    limit new approach side (body.renameFree (update id name new))
  | x => x

def withChildren (x : Expr) (parts : List Expr) : Expr :=
  match x, parts with
  | binary op _ _, [l, r] => binary op l r
  | relation r _ _, [l, x] => relation r l x
  | power _ _, [b, e] => power b e
  | fraction _ _, [n, d] => fraction n d
  | binomial _ _, [t, b] => binomial t b
  | negated _, [x] => negated x
  | group _, [x] => group x
  | factorial _, [x] => factorial x
  | apply f _, args => apply f args
  | call name _, args => call name args
  | powered f _ _, e :: args => powered f e args
  | aggregate kind name _ _ _, [lower, upper, body] => aggregate kind name lower upper body
  | integral none none _ name, [integrand] => integral none none integrand name
  | integral (some _) none _ name, [lower, integrand] => integral (some lower) none integrand name
  | integral none (some _) _ name, [upper, integrand] => integral none (some upper) integrand name
  | integral (some _) (some _) _ name, [lower, upper, integrand] =>
    integral (some lower) (some upper) integrand name
  | limit name _ side _, [approach, body] => limit name approach side body
  | x, _ => x

/-- The part at a place: each number tells which child to go down to. -/
def part? : List Nat → Expr → Option Expr
  | [], x => some x
  | i :: place, x => x.children[i]?.bind (part? place)

def modifyAt (f : Expr → Expr) : List Nat → Expr → Expr
  | [], x => f x
  | i :: place, x => x.withChildren (x.children.modify i (modifyAt f place))

def ownUsedNames : Expr → List String
  | symbol name | aggregate _ name _ _ _ | integral _ _ _ name | limit name _ _ _ => [name]
  | _ => []

def usedNames (x : Expr) : List String := x.collect ownUsedNames

def CallFree (x : Expr) : Prop := ∀ y : Expr, y.Occurs x → y.calledName? = none

variable {x y : Expr} {name : String}

theorem CallFree.of_child (h : x.CallFree) (hy : y ∈ x.children) : y.CallFree :=
  fun z hz => h z (.inside hy hz)

theorem CallFree.of_part {place : List Nat} (h : x.CallFree) (hy : part? place x = some y) :
    y.CallFree := by
  induction place generalizing x with
  | nil => exact Option.some.inj hy ▸ h
  | cons i place ih =>
    obtain ⟨z, hz, hy⟩ := Option.bind_eq_some_iff.1 hy
    exact ih (h.of_child (List.mem_of_getElem? hz)) hy

theorem callFree_of_collect (h : x.collect (fun y => y.calledName?.toList) = []) : x.CallFree := by
  intro y hy
  cases hname : y.calledName? with
  | none => rfl
  | some name =>
    have hmem : name ∈ x.collect fun y => y.calledName?.toList := mem_collect hy (by simp [hname])
    rw [h] at hmem
    cases hmem

theorem usedNames_of_child (hy : y ∈ x.children) (h : name ∈ y.usedNames) : name ∈ x.usedNames :=
  mem_collect_of_child hy h

end Expr

end AnswerKey

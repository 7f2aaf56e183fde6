import AnswerKey.Proofs.Evaluation.Strays
import AnswerKey.Proofs.Expr.Renaming

/-! The name that a sum, a product, an integral or a limit binds is of no account:
with a name that is new to the body in its place the evaluation is the same. -/
namespace AnswerKey

open Evaluation (Options Scopes lookup)
open Function (update)

/-- Of the names in use, a renamed one is found where it was found before, and no
name is renamed to another one in use. -/
structure Finds {α : Type} (ρ : String → String) (names : List String)
    (found found' : String → α) : Prop where
  fresh : ∀ n ∈ names, ρ n = n ∨ ρ n ∉ names
  same : ∀ n ∈ names, found' (ρ n) = found n

namespace Finds

variable {α : Type} {ρ : String → String} {names part : List String} {found found' : String → α}
  {name new : String}

theorem mono (h : Finds ρ names found found') (sub : ∀ n ∈ part, n ∈ names) :
    Finds ρ part found found' where
  fresh n hn := (h.fresh n (sub n hn)).imp id fun hnew hmem => hnew (sub _ hmem)
  same n hn := h.same n (sub n hn)

theorem under (h : Finds ρ names found found') (hname : name ∈ names) (a : α) :
    Finds (update ρ name name) names (update found name a) (update found' name a) where
  fresh n hn := by
    by_cases hn' : n = name
    · exact .inl (by rw [hn', Function.update_self])
    · rw [Function.update_of_ne hn']
      exact h.fresh n hn
  same n hn := by
    by_cases hn' : n = name
    · simp [hn']
    · -- As `name` is in use, no other name is renamed to it.
      have hρ : ρ n ≠ name := by
        rintro rfl
        rcases h.fresh n hn with hsame | hnew
        · exact hn' hsame.symm
        · exact hnew hname
      rw [Function.update_of_ne hn', Function.update_of_ne hρ, Function.update_of_ne hn',
        h.same n hn]

theorem binder (hnew : new ∉ names) (a : α) :
    Finds (update id name new) names (update found name a) (update found new a) where
  fresh n hn := by
    by_cases hn' : n = name
    · exact .inr (by rwa [hn', Function.update_self])
    · exact .inl (by rw [Function.update_of_ne hn', id])
  same n hn := by
    by_cases hn' : n = name
    · simp [hn']
    · have hne : n ≠ new := fun h => hnew (h ▸ hn)
      rw [Function.update_of_ne hn', id, Function.update_of_ne hne, Function.update_of_ne hn']

end Finds

theorem Evaluation.lookup_cons {b : Binding} {scopes : Scopes} {name : String} {v : Value} :
    lookup b ((name, v) :: scopes) = update (lookup b scopes) name (.ok v) := by
  funext n
  by_cases hn : n = name
  · subst hn
    simp [lookup]
  · rw [Function.update_of_ne hn]
    simp [lookup, List.lookup_cons, beq_eq_false_iff_ne.2 hn]

def freeName? (bound : List String) (name : String) : Option String :=
  if bound.contains name then none else some name

theorem freeName?_cons {bound : List String} {name : String} :
    freeName? (name :: bound) = update (freeName? bound) name none := by
  funext n
  by_cases hn : n = name
  · simp [freeName?, hn]
  · rw [Function.update_of_ne hn]
    simp [freeName?, hn]

namespace Expr

open Evaluation (lookup_cons)

variable {x y : Expr} {ρ : String → String}

theorem mem_usedNames_self {name : String} (h : name ∈ x.ownUsedNames) : name ∈ x.usedNames :=
  mem_collect (.self x) h

theorem finds_child {α : Type} {found found' : String → α}
    (h : Finds ρ x.usedNames found found') (hy : y ∈ x.children) :
    Finds ρ y.usedNames found found' := h.mono fun _ => usedNames_of_child hy

theorem finds_body {α : Type} {found found' : String → α}
    (h : Finds ρ x.usedNames found found') {name : String} (hname : name ∈ x.ownUsedNames)
    {body : Expr} (hbody : body ∈ x.children) (a : α) :
    Finds (update ρ name name) body.usedNames (update found name a) (update found' name a) :=
  (h.under (mem_usedNames_self hname) a).mono fun _ => usedNames_of_child hbody

/-! What is free in a renamed expression. -/

section

variable {bound bound' : List String}

theorem freeNames_symbol {name : String} :
    (symbol name).freeNames bound = (freeName? bound name).toList := by
  unfold freeNames freeName?
  split <;> rfl

theorem finds_freeName (h : Finds ρ x.usedNames (freeName? bound) (freeName? bound'))
    (name : String) (hname : name ∈ x.ownUsedNames) {body : Expr} (hbody : body ∈ x.children) :
    Finds (update ρ name name) body.usedNames (freeName? (name :: bound))
      (freeName? (name :: bound')) := by
  rw [freeName?_cons, freeName?_cons]
  exact finds_body h hname hbody none

theorem freeNamesAll_renameFree {xs : List Expr}
    (ih : ∀ x ∈ xs, (x.renameFree ρ).freeNames bound' = x.freeNames bound) :
    freeNamesAll bound' (renameFreeAll ρ xs) = freeNamesAll bound xs := by
  induction xs with
  | nil => rfl
  | cons x rest ihr =>
    have hx := ih x List.mem_cons_self
    have hr := ihr fun y hy => ih y (List.mem_cons_of_mem x hy)
    simp only [renameFreeAll, freeNamesAll, hx, hr]

theorem freeNamesOption_renameFree {x? : Option Expr}
    (ih : ∀ x ∈ x?, (x.renameFree ρ).freeNames bound' = x.freeNames bound) :
    freeNamesOption bound' (renameFreeOption ρ x?) = freeNamesOption bound x? := by
  cases x? with
  | none => rfl
  | some x => exact ih x rfl

theorem freeNames_renameFree (calls : x.CallFree)
    (h : Finds ρ x.usedNames (freeName? bound) (freeName? bound')) :
    (x.renameFree ρ).freeNames bound' = x.freeNames bound := by
  induction x using Expr.induct generalizing ρ bound bound' with
  | number x => rfl
  | symbol n =>
    have hn := h.same n (mem_usedNames_self (by simp [ownUsedNames]))
    simp only [renameFree, freeNames_symbol, hn]
  | binary _ _ _ hl hr | power _ _ hl hr | fraction _ _ hl hr | binomial _ _ hl hr
  | relation _ _ _ hl hr =>
    have hl := hl (calls.of_child (by simp [children])) (finds_child h (by simp [children]))
    have hr := hr (calls.of_child (by simp [children])) (finds_child h (by simp [children]))
    simp only [renameFree, freeNames, hl, hr]
  | negated _ hx | group _ hx | factorial _ hx =>
    exact hx (calls.of_child (by simp [children])) (finds_child h (by simp [children]))
  | apply f args ih =>
    exact freeNamesAll_renameFree fun y hy => ih y hy (calls.of_child hy) (finds_child h hy)
  | call name args ih => exact absurd (calls _ (.self _)) (by simp [calledName?])
  | powered f e args he ih =>
    have he := he (calls.of_child (by simp [children])) (finds_child h (by simp [children]))
    have hall := freeNamesAll_renameFree fun y hy =>
      ih y hy (calls.of_child (by simp [children, hy])) (finds_child h (by simp [children, hy]))
    simp only [renameFree, freeNames, he, hall]
  | aggregate kind name lower upper body hl hu hb =>
    have hl := hl (calls.of_child (by simp [children])) (finds_child h (by simp [children]))
    have hu := hu (calls.of_child (by simp [children])) (finds_child h (by simp [children]))
    have hb := hb (calls.of_child (by simp [children]))
      (finds_freeName h name (by simp [ownUsedNames]) (by simp [children]))
    simp only [renameFree, freeNames, hl, hu, hb]
  | integral lower upper integrand name hl hu hb =>
    have hl := freeNamesOption_renameFree fun y hy => hl y hy
      (calls.of_child (by simp [children, Option.mem_def.1 hy]))
      (finds_child h (by simp [children, Option.mem_def.1 hy]))
    have hu := freeNamesOption_renameFree fun y hy => hu y hy
      (calls.of_child (by simp [children, Option.mem_def.1 hy]))
      (finds_child h (by simp [children, Option.mem_def.1 hy]))
    have hb := hb (calls.of_child (by simp [children]))
      (finds_freeName h name (by simp [ownUsedNames]) (by simp [children]))
    simp only [renameFree, freeNames, hl, hu, hb]
  | limit name approach side body ha hb =>
    have ha := ha (calls.of_child (by simp [children])) (finds_child h (by simp [children]))
    have hb := hb (calls.of_child (by simp [children]))
      (finds_freeName h name (by simp [ownUsedNames]) (by simp [children]))
    simp only [renameFree, freeNames, ha, hb]

end

/-! The value of a renamed expression. -/

section

variable {b : Binding} {options : Options} {scopes scopes' : Scopes}

theorem finds_lookup (h : Finds ρ x.usedNames (lookup b scopes) (lookup b scopes')) (name : String)
    (hname : name ∈ x.ownUsedNames) {body : Expr} (hbody : body ∈ x.children) (v : Value) :
    Finds (update ρ name name) body.usedNames (lookup b ((name, v) :: scopes))
      (lookup b ((name, v) :: scopes')) := by
  rw [lookup_cons, lookup_cons]
  exact finds_body h hname hbody (.ok v)

theorem evalAll_renameFree {xs : List Expr}
    (ih : ∀ x ∈ xs, (x.renameFree ρ).eval b options scopes' = x.eval b options scopes) :
    evalAll b options scopes' (renameFreeAll ρ xs) = evalAll b options scopes xs := by
  induction xs with
  | nil => rfl
  | cons x rest ihr =>
    have hx := ih x List.mem_cons_self
    have hr := ihr fun y hy => ih y (List.mem_cons_of_mem x hy)
    simp only [renameFreeAll, evalAll, hx, hr]

theorem eval_renameFree (h : Finds ρ x.usedNames (lookup b scopes) (lookup b scopes')) :
    (x.renameFree ρ).eval b options scopes' = x.eval b options scopes := by
  induction x using Expr.induct generalizing ρ scopes scopes' with
  | number x => rfl
  | symbol n => exact h.same n (mem_usedNames_self (by simp [ownUsedNames]))
  | binary _ _ _ hl hr | power _ _ hl hr | fraction _ _ hl hr | binomial _ _ hl hr =>
    have hl := hl (finds_child h (by simp [children]))
    have hr := hr (finds_child h (by simp [children]))
    simp only [renameFree, eval, hl, hr]
  | negated _ hx | group _ hx | factorial _ hx =>
    have hx := hx (finds_child h (by simp [children]))
    simp only [renameFree, eval, hx]
  | apply f args ih =>
    have hall := evalAll_renameFree fun y hy => ih y hy (finds_child h hy)
    simp only [renameFree, eval, hall]
  | call name args _ => rfl
  | powered f e args he ih =>
    have he := he (finds_child h (by simp [children]))
    have hall := evalAll_renameFree fun y hy => ih y hy (finds_child h (by simp [children, hy]))
    simp only [renameFree, eval, he, hall]
  | aggregate kind name lower upper body hl hu hb =>
    have hl := hl (finds_child h (by simp [children]))
    have hu := hu (finds_child h (by simp [children]))
    have body (v : Value) :=
      hb (finds_lookup h name (by simp [ownUsedNames]) (by simp [children]) v)
    simp only [renameFree, eval, hl, hu, body]
  | integral lower upper integrand name hl hu hb =>
    have body (v : Value) :=
      hb (finds_lookup h name (by simp [ownUsedNames]) (by simp [children]) v)
    cases lower with
    | none => rfl
    | some l =>
      cases upper with
      | none => rfl
      | some u =>
        have hl := hl l rfl (finds_child h (by simp [children]))
        have hu := hu u rfl (finds_child h (by simp [children]))
        simp only [renameFree, renameFreeOption, eval, hl, hu, body]
  | limit name approach side body ha hb =>
    have ha := ha (finds_child h (by simp [children]))
    have body (v : Value) :=
      hb (finds_lookup h name (by simp [ownUsedNames]) (by simp [children]) v)
    simp only [renameFree, eval, ha, body]
  | relation _ _ _ _ _ => rfl

end

/-- Nothing that is evaluated tells the second expression from the first, on its own
or as a part. -/
structure Interchangeable (x y : Expr) : Prop where
  freeNames : ∀ bound, y.freeNames bound = x.freeNames bound
  eval : ∀ b options scopes, y.eval b options scopes = x.eval b options scopes
  evaluate : ∀ b options, y.evaluate b options = x.evaluate b options

namespace Interchangeable

theorem refl (x : Expr) : Interchangeable x x := ⟨fun _ => rfl, fun _ _ _ => rfl, fun _ _ => rfl⟩

theorem check (h : Interchangeable x y) (b : Binding) : b.check y = b.check x := by
  simp only [Binding.check, freeSymbols, h.freeNames]

theorem of_targets (hx : x.target = .ok x) (hy : y.target = .ok y)
    (freeNames : ∀ bound, y.freeNames bound = x.freeNames bound)
    (eval : ∀ b options scopes, y.eval b options scopes = x.eval b options scopes) :
    Interchangeable x y where
  freeNames := freeNames
  eval := eval
  evaluate b options := by
    rw [evaluate_of_target hx, evaluate_of_target hy, eval]
    simp only [Binding.check, freeSymbols, freeNames]

theorem relation {l l' : Expr} (r : Relation) (hl : Interchangeable l l')
    (hx : Interchangeable x y) : Interchangeable (relation r l x) (Expr.relation r l' y) where
  freeNames bound := by simp only [Expr.freeNames, hl.freeNames, hx.freeNames]
  eval _ _ _ := rfl
  evaluate b options := by
    cases r with
    | equal =>
      rw [evaluate_of_target (t := y) rfl, evaluate_of_target (t := x) rfl, hx.check, hx.eval]
    | _ => rfl

theorem freeNamesAll {xs ys : List Expr} (h : List.Forall₂ Interchangeable xs ys)
    (bound : List String) : Expr.freeNamesAll bound ys = Expr.freeNamesAll bound xs := by
  induction h with
  | nil => rfl
  | cons hx _ ih => simp only [Expr.freeNamesAll, hx.freeNames, ih]

theorem evalAll {xs ys : List Expr} (h : List.Forall₂ Interchangeable xs ys) (b : Binding)
    (options : Options) (scopes : Scopes) :
    Expr.evalAll b options scopes ys = Expr.evalAll b options scopes xs := by
  induction h with
  | nil => rfl
  | cons hx _ ih => simp only [Expr.evalAll, hx.eval, ih]

theorem withChildren {ys : List Expr} (h : List.Forall₂ Interchangeable x.children ys) :
    Interchangeable x (x.withChildren ys) := by
  cases x with
  | number | symbol => exact refl _
  | binary | power | fraction | binomial | limit =>
    simp only [children, List.forall₂_cons_left_iff, List.forall₂_nil_left_iff] at h
    obtain ⟨l, _, hl, ⟨r, _, hr, rfl, rfl⟩, rfl⟩ := h
    exact of_targets rfl rfl
      (fun _ => by simp only [Expr.withChildren, Expr.freeNames, hl.freeNames, hr.freeNames])
      (fun _ _ _ => by simp only [Expr.withChildren, Expr.eval, hl.eval, hr.eval])
  | relation r =>
    simp only [children, List.forall₂_cons_left_iff, List.forall₂_nil_left_iff] at h
    obtain ⟨l, _, hl, ⟨x, _, hx, rfl, rfl⟩, rfl⟩ := h
    exact .relation r hl hx
  | negated | group | factorial =>
    simp only [children, List.forall₂_cons_left_iff, List.forall₂_nil_left_iff] at h
    obtain ⟨x, _, hx, rfl, rfl⟩ := h
    exact of_targets rfl rfl
      (fun _ => by simp only [Expr.withChildren, Expr.freeNames, hx.freeNames])
      (fun _ _ _ => by simp only [Expr.withChildren, Expr.eval, hx.eval])
  | apply f args =>
    have h : List.Forall₂ Interchangeable args ys := h
    exact of_targets rfl rfl (freeNamesAll h)
      (fun _ _ _ => by simp only [Expr.withChildren, Expr.eval, evalAll h])
  | call name args =>
    have h : List.Forall₂ Interchangeable args ys := h
    exact of_targets rfl rfl
      (fun _ => by simp only [Expr.withChildren, Expr.freeNames, freeNamesAll h]) fun _ _ _ => rfl
  | powered =>
    simp only [children, List.forall₂_cons_left_iff] at h
    obtain ⟨e, args, he, hall, rfl⟩ := h
    exact of_targets rfl rfl
      (fun _ => by simp only [Expr.withChildren, Expr.freeNames, he.freeNames, freeNamesAll hall])
      (fun _ _ _ => by simp only [Expr.withChildren, Expr.eval, he.eval, evalAll hall])
  | aggregate =>
    simp only [children, List.forall₂_cons_left_iff, List.forall₂_nil_left_iff] at h
    obtain ⟨l, _, hl, ⟨u, _, hu, ⟨x, _, hx, rfl, rfl⟩, rfl⟩, rfl⟩ := h
    exact of_targets rfl rfl
      (fun _ => by
        simp only [Expr.withChildren, Expr.freeNames, hl.freeNames, hu.freeNames, hx.freeNames])
      (fun _ _ _ => by simp only [Expr.withChildren, Expr.eval, hl.eval, hu.eval, hx.eval])
  | integral lower upper =>
    cases lower <;> cases upper <;>
      simp only [children, Option.toList, List.nil_append, List.cons_append,
        List.forall₂_cons_left_iff, List.forall₂_nil_left_iff] at h
    · obtain ⟨x, _, hx, rfl, rfl⟩ := h
      exact of_targets rfl rfl
        (fun _ => by simp only [Expr.withChildren, Expr.freeNames, freeNamesOption, hx.freeNames])
        fun _ _ _ => rfl
    · obtain ⟨u, _, hu, ⟨x, _, hx, rfl, rfl⟩, rfl⟩ := h
      exact of_targets rfl rfl
        (fun _ => by
          simp only [Expr.withChildren, Expr.freeNames, freeNamesOption, hu.freeNames, hx.freeNames])
        fun _ _ _ => rfl
    · obtain ⟨l, _, hl, ⟨x, _, hx, rfl, rfl⟩, rfl⟩ := h
      exact of_targets rfl rfl
        (fun _ => by
          simp only [Expr.withChildren, Expr.freeNames, freeNamesOption, hl.freeNames, hx.freeNames])
        fun _ _ _ => rfl
    · obtain ⟨l, _, hl, ⟨u, _, hu, ⟨x, _, hx, rfl, rfl⟩, rfl⟩, rfl⟩ := h
      exact of_targets rfl rfl
        (fun _ => by
          simp only [Expr.withChildren, Expr.freeNames, freeNamesOption, hl.freeNames, hu.freeNames,
            hx.freeNames])
        (fun _ _ _ => by simp only [Expr.withChildren, Expr.eval, hl.eval, hu.eval, hx.eval])

theorem forall₂_modify {f : Expr → Expr} {xs : List Expr} {i : Nat} (hy : xs[i]? = some y)
    (h : Interchangeable y (f y)) : List.Forall₂ Interchangeable xs (xs.modify i f) := by
  induction xs generalizing i with
  | nil => cases hy
  | cons x rest ih =>
    cases i with
    | zero =>
      obtain rfl := Option.some.inj hy
      exact .cons h (List.forall₂_same.2 fun z _ => refl z)
    | succ i => exact .cons (refl x) (ih hy)

/-- What stands at a place of an expression may be exchanged. -/
theorem modifyAt {f : Expr → Expr} {place : List Nat} (hy : part? place x = some y)
    (h : Interchangeable y (f y)) : Interchangeable x (x.modifyAt f place) := by
  induction place generalizing x with
  | nil =>
    obtain rfl := Option.some.inj hy
    exact h
  | cons i place ih =>
    obtain ⟨z, hz, hy⟩ := Option.bind_eq_some_iff.1 hy
    exact withChildren (forall₂_modify hz (ih hy))

end Interchangeable

theorem interchangeable_rebind {name new : String} {body : Expr} (calls : x.CallFree)
    (binds : x.binder? = some (name, body)) (fresh : new ∉ body.usedNames) :
    Interchangeable x (x.rebind new) := by
  have free (hbody : body ∈ x.children) (bound : List String) :
      (body.renameFree (update id name new)).freeNames (new :: bound) =
        body.freeNames (name :: bound) := by
    refine freeNames_renameFree (calls.of_child hbody) ?_
    rw [freeName?_cons, freeName?_cons]
    exact .binder fresh _
  have value (b : Binding) (options : Options) (scopes : Scopes) (v : Value) :
      (body.renameFree (update id name new)).eval b options ((new, v) :: scopes) =
        body.eval b options ((name, v) :: scopes) := by
    refine eval_renameFree ?_
    rw [lookup_cons, lookup_cons]
    exact .binder fresh _
  cases x with
  | aggregate | limit =>
    obtain ⟨rfl, rfl⟩ := Prod.mk.inj (Option.some.inj binds)
    exact .of_targets rfl rfl
      (fun _ => by simp only [rebind, Expr.freeNames, free (by simp [children])])
      (fun _ _ _ => by simp only [rebind, Expr.eval, value])
  | integral lower upper =>
    obtain ⟨rfl, rfl⟩ := Prod.mk.inj (Option.some.inj binds)
    refine .of_targets rfl rfl
      (fun _ => by simp only [rebind, Expr.freeNames, free (by simp [children])]) fun _ _ _ => ?_
    cases lower with
    | none => rfl
    | some _ =>
      cases upper with
      | none => rfl
      | some _ => simp only [rebind, Expr.eval, value]
  | _ => cases binds

/-- The name that is bound at some place of an expression without called names is of
no account: with any name that does not occur in the body the expression has the
same value or fails alike, also where the new name is declared or a constant. -/
theorem evaluate_modifyAt_rebind {place : List Nat} {name new : String} {body : Expr}
    (calls : x.CallFree) (here : part? place x = some y) (binds : y.binder? = some (name, body))
    (fresh : new ∉ body.usedNames) (b : Binding) (options : Options) :
    (x.modifyAt (rebind new) place).evaluate b options = x.evaluate b options :=
  ((interchangeable_rebind (calls.of_part here) binds fresh).modifyAt here).evaluate b options

def sumOfProducts (name : String) : Expr :=
  relation .equal (symbol "y") (binary .add (symbol "e")
    (aggregate .sum name (number 1) (symbol "n")
      (aggregate .product "k" (symbol name) (number 3) (symbol "k"))))

/-- The sum may be over `k` itself or over the declared `e`. -/
theorem evaluate_sumOfProducts :
    (sumOfProducts "e").evaluate ⟨[("n", 2), ("e", 5)]⟩ {} =
      (sumOfProducts "k").evaluate ⟨[("n", 2), ("e", 5)]⟩ {} := by
  have calls : (sumOfProducts "k").CallFree := callFree_of_collect (by decide +kernel)
  have fresh : "e" ∉ (aggregate .product "k" (symbol "k") (number 3) (symbol "k")).usedNames := by
    decide +kernel
  show ((sumOfProducts "k").modifyAt (rebind "e") [1, 1]).evaluate _ _ = _
  exact evaluate_modifyAt_rebind calls rfl rfl fresh _ _

end Expr

end AnswerKey

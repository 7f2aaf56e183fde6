import AnswerKey.Expr.Scope

/-! The mentions of names in an expression, each with the names bound around it.
The free names are those of the mentions that nothing around them binds. -/
namespace AnswerKey

structure Mention where
  name : String
  isCall : Bool
  around : List String

def Mention.IsFree (m : Mention) : Prop := m.name ∉ m.around

instance (m : Mention) : Decidable m.IsFree := inferInstanceAs (Decidable (m.name ∉ m.around))

namespace Expr

mutual

def mentions (bound : List String) : Expr → List Mention
  | number _ => []
  | symbol name => [⟨name, false, bound⟩]
  | binary _ l r | relation _ l r | power l r | fraction l r | binomial l r =>
    mentions bound l ++ mentions bound r
  | negated x | group x | factorial x => mentions bound x
  | apply _ args => mentionsAll bound args
  | call name args => ⟨name, true, bound⟩ :: mentionsAll bound args
  | powered _ exponent args => mentions bound exponent ++ mentionsAll bound args
  | aggregate _ name lower upper body =>
    mentions bound lower ++ (mentions bound upper ++ mentions (name :: bound) body)
  | integral lower upper integrand name =>
    mentionsOption bound lower ++
      (mentionsOption bound upper ++ mentions (name :: bound) integrand)
  | limit name approach _ body => mentions bound approach ++ mentions (name :: bound) body

def mentionsAll (bound : List String) : List Expr → List Mention
  | [] => []
  | x :: rest => mentions bound x ++ mentionsAll bound rest

def mentionsOption (bound : List String) : Option Expr → List Mention
  | none => []
  | some x => mentions bound x

end

/-- Induction over an expression with its arguments and its optional bounds. -/
@[elab_as_elim] theorem induct {motive : Expr → Prop}
    (number : ∀ x, motive (number x)) (symbol : ∀ name, motive (symbol name))
    (binary : ∀ op l r, motive l → motive r → motive (binary op l r))
    (negated : ∀ x, motive x → motive (negated x))
    (power : ∀ b e, motive b → motive e → motive (power b e))
    (group : ∀ x, motive x → motive (group x))
    (fraction : ∀ n d, motive n → motive d → motive (fraction n d))
    (binomial : ∀ t b, motive t → motive b → motive (binomial t b))
    (apply : ∀ f args, (∀ x ∈ args, motive x) → motive (apply f args))
    (call : ∀ name args, (∀ x ∈ args, motive x) → motive (call name args))
    (powered : ∀ f e args, motive e → (∀ x ∈ args, motive x) → motive (powered f e args))
    (factorial : ∀ x, motive x → motive (factorial x))
    (aggregate : ∀ kind name lower upper body, motive lower → motive upper → motive body →
      motive (aggregate kind name lower upper body))
    (integral : ∀ lower upper integrand name, (∀ x ∈ lower, motive x) → (∀ x ∈ upper, motive x) →
      motive integrand → motive (integral lower upper integrand name))
    (limit : ∀ name approach side body, motive approach → motive body →
      motive (limit name approach side body))
    (relation : ∀ r l x, motive l → motive x → motive (relation r l x)) (x : Expr) :
    motive x := by
  refine @Expr.rec motive (fun xs => ∀ x ∈ xs, motive x) (fun x? => ∀ x ∈ x?, motive x)
    number symbol binary negated power group fraction binomial apply call powered factorial
    aggregate integral limit relation ?_ ?_ ?_ ?_ x
  · intro x hx
    cases hx
  · intro x xs hx hxs y hy
    rcases List.mem_cons.1 hy with rfl | hy
    · exact hx
    · exact hxs y hy
  · intro x hx
    cases hx
  · intro x hx y hy
    obtain rfl := Option.some.inj hy
    exact hx

end Expr

theorem mem_insertName {name other : String} {xs : List String} :
    other ∈ insertName name xs ↔ other = name ∨ other ∈ xs := by
  induction xs with
  | nil => simp [insertName]
  | cons x rest ih =>
    simp only [insertName]
    split
    · simp
    · split
      · next h => simp [h]
      · simp only [List.mem_cons, ih]
        constructor
        · rintro (h | h | h) <;> simp [h]
        · rintro (h | h | h) <;> simp [h]

theorem mem_unionNames {name : String} {xs ys : List String} :
    name ∈ unionNames xs ys ↔ name ∈ xs ∨ name ∈ ys := by
  induction xs with
  | nil => simp [unionNames]
  | cons x rest ih =>
    have : unionNames (x :: rest) ys = insertName x (unionNames rest ys) := rfl
    rw [this, mem_insertName, ih, List.mem_cons, or_assoc]

abbrev Ascending (xs : List String) : Prop := xs.Pairwise (· < ·)

theorem ascending_insertName {name : String} {xs : List String} (h : Ascending xs) :
    Ascending (insertName name xs) := by
  induction xs with
  | nil => simp [insertName]
  | cons x rest ih =>
    obtain ⟨hx, hr⟩ := List.pairwise_cons.1 h
    simp only [insertName]
    split
    · next hlt =>
      refine List.pairwise_cons.2 ⟨fun y hy => ?_, h⟩
      rcases List.mem_cons.1 hy with rfl | hy
      · exact hlt
      · exact String.lt_trans hlt (hx y hy)
    · next hle =>
      split
      · exact h
      · next hne =>
        refine List.pairwise_cons.2 ⟨fun y hy => ?_, ih hr⟩
        rcases mem_insertName.1 hy with rfl | hy
        · exact Std.lt_of_le_of_ne (String.not_lt.1 hle) (Ne.symm hne)
        · exact hx y hy

theorem ascending_unionNames {xs ys : List String} (h : Ascending ys) :
    Ascending (unionNames xs ys) := by
  induction xs with
  | nil => exact h
  | cons x rest ih => exact ascending_insertName ih

namespace Expr

section

variable {name : String} {bound : List String} {P : Mention → Prop}

theorem mem_freeNamesAll {xs : List Expr}
    (ih : ∀ x ∈ xs, name ∈ x.freeNames bound ↔ ∃ m ∈ x.mentions bound, P m) :
    name ∈ freeNamesAll bound xs ↔ ∃ m ∈ mentionsAll bound xs, P m := by
  induction xs with
  | nil => simp [freeNamesAll, mentionsAll]
  | cons x rest ihr =>
    have hx := ih x List.mem_cons_self
    have hr := ihr fun y hy => ih y (List.mem_cons_of_mem x hy)
    simp only [freeNamesAll, mentionsAll, mem_unionNames, hx, hr, List.mem_append, or_and_right,
      exists_or]

theorem mem_freeNamesOption {x? : Option Expr}
    (ih : ∀ x ∈ x?, name ∈ x.freeNames bound ↔ ∃ m ∈ x.mentions bound, P m) :
    name ∈ freeNamesOption bound x? ↔ ∃ m ∈ mentionsOption bound x?, P m := by
  cases x? with
  | none => simp [freeNamesOption, mentionsOption]
  | some x => exact ih x rfl

theorem mem_freeNames {x : Expr} :
    name ∈ x.freeNames bound ↔ ∃ m ∈ x.mentions bound, m.name = name ∧ m.IsFree := by
  induction x using Expr.induct generalizing bound with
  | number x => simp [freeNames, mentions]
  | symbol n =>
    by_cases h : n ∈ bound
    · simp [freeNames, mentions, Mention.IsFree, h]
    · simp [freeNames, mentions, Mention.IsFree, h, eq_comm]
  | binary _ _ _ hl hr | power _ _ hl hr | fraction _ _ hl hr | binomial _ _ hl hr
  | relation _ _ _ hl hr | limit _ _ _ _ hl hr =>
    simp only [freeNames, mentions, mem_unionNames, hl, hr, List.mem_append, or_and_right,
      exists_or]
  | negated _ h | group _ h | factorial _ h => simp only [freeNames, mentions, h]
  | apply f args ih => exact mem_freeNamesAll fun x hx => ih x hx
  | call n args ih =>
    have hall := mem_freeNamesAll fun x hx => @ih x hx bound
    have hn : name ∈ (if bound.contains n then [] else [n]) ↔ n = name ∧ n ∉ bound := by
      by_cases h : n ∈ bound
      · simp [h]
      · simp [h, eq_comm]
    simp only [freeNames, mentions, mem_unionNames, hall, hn, List.mem_cons, or_and_right,
      exists_or, exists_eq_left, Mention.IsFree]
  | powered f e args he ih =>
    have hall := mem_freeNamesAll fun x hx => @ih x hx bound
    simp only [freeNames, mentions, mem_unionNames, he, hall, List.mem_append, or_and_right,
      exists_or]
  | aggregate _ _ _ _ _ hl hu hb =>
    simp only [freeNames, mentions, mem_unionNames, hl, hu, hb, List.mem_append, or_and_right,
      exists_or]
  | integral _ _ _ _ hl hu hb =>
    have hl := mem_freeNamesOption fun x hx => @hl x hx bound
    have hu := mem_freeNamesOption fun x hx => @hu x hx bound
    simp only [freeNames, mentions, mem_unionNames, hl, hu, hb, List.mem_append, or_and_right,
      exists_or]

end

theorem ascending_freeNamesAll {bound : List String} {xs : List Expr} :
    Ascending (freeNamesAll bound xs) := by
  induction xs with
  | nil => exact .nil
  | cons x rest ih => exact ascending_unionNames ih

theorem ascending_freeNames {x : Expr} {bound : List String} : Ascending (x.freeNames bound) := by
  induction x using Expr.induct generalizing bound with
  | number x => exact .nil
  | symbol n =>
    by_cases h : n ∈ bound <;> simp [freeNames, h]
  | binary _ _ _ _ hr | power _ _ _ hr | fraction _ _ _ hr | binomial _ _ _ hr
  | relation _ _ _ _ hr | limit _ _ _ _ _ hr => exact ascending_unionNames hr
  | negated _ h | group _ h | factorial _ h => exact h
  | apply f args _ => exact ascending_freeNamesAll
  | call n args _ => exact ascending_unionNames ascending_freeNamesAll
  | powered f e args _ _ => exact ascending_unionNames ascending_freeNamesAll
  | aggregate _ _ _ _ _ _ _ hb => exact ascending_unionNames (ascending_unionNames hb)
  | integral _ _ _ _ _ _ hb => exact ascending_unionNames (ascending_unionNames hb)

end Expr

end AnswerKey

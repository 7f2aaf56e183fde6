import AnswerKey.Expr.OfFormula
import AnswerKey.Proofs.Success
import Mathlib.Data.List.Forall2

/-! What the expression of a formula consists of: one case for each shape of a
formula that has an expression, with the expressions of its parts. -/
namespace AnswerKey

def Expr.children : Expr → List Expr
  | number _ | symbol _ => []
  | binary _ l r | relation _ l r | power l r | fraction l r | binomial l r => [l, r]
  | negated x | group x | factorial x => [x]
  | apply _ args | call _ args => args
  | powered _ exponent args => exponent :: args
  | aggregate _ _ lower upper body => [lower, upper, body]
  | integral lower upper integrand _ => lower.toList ++ (upper.toList ++ [integrand])
  | limit _ approach _ body => [approach, body]

theorem Expr.sizeOf_pos (x : Expr) : 0 < sizeOf x :=
  Nat.pos_of_ne_zero (by cases x <;> simp)

theorem Expr.sizeOf_lt_of_mem_children {x y : Expr} (h : y ∈ x.children) : sizeOf y < sizeOf x := by
  cases x with
  | number | symbol => cases h
  | apply _ args | call _ args =>
    have : sizeOf y < sizeOf args := List.sizeOf_lt_of_mem h
    simp only [apply.sizeOf_spec, call.sizeOf_spec]
    omega
  | powered _ e args =>
    rcases List.mem_cons.1 h with rfl | h
    · simp only [powered.sizeOf_spec]; omega
    · have := List.sizeOf_lt_of_mem h
      simp only [powered.sizeOf_spec]; omega
  | integral lower upper integrand name =>
    simp only [children, List.mem_append, Option.mem_toList, List.mem_singleton] at h
    rcases h with h | h | rfl
    · cases h; simp only [integral.sizeOf_spec, Option.some.sizeOf_spec]; omega
    · cases h; simp only [integral.sizeOf_spec, Option.some.sizeOf_spec]; omega
    · simp only [integral.sizeOf_spec]; omega
  | _ =>
    simp only [children, List.mem_cons, List.not_mem_nil, or_false] at h
    rcases h with rfl | rfl | rfl <;> simp <;> omega

namespace Formula

theorem checkCount_eq_ok {f : Builtin} {count : Nat} {u : Unit} :
    checkCount f count = .ok u ↔ f.accepts count = true := by
  unfold checkCount
  split <;> simp_all

inductive ExprStep : Formula → Expr → Prop
  | number {digits : String} {a : Double} (read : Decimal.read? digits.toList = some a) :
      ExprStep (.number digits) (.number a)
  | symbol (name : String) : ExprStep (.symbol name) (.symbol name)
  | infinity : ExprStep .infinity (.number (Double.infinity false))
  | binary (op : Operation) {l r : Formula} {y z : Expr} (left : l.toExpr = .ok y)
      (right : r.toExpr = .ok z) : ExprStep (.binary op l r) (.binary op y z)
  | juxtaposed (a : Adjacency) {l r : Formula} {y z : Expr} (left : l.toExpr = .ok y)
      (right : r.toExpr = .ok z) : ExprStep (.juxtaposed a l r) (.binary .mul y z)
  | negated {f : Formula} {y : Expr} (part : f.toExpr = .ok y) :
      ExprStep (.negated f) (.negated y)
  | power {b e : Formula} {y z : Expr} (base : b.toExpr = .ok y) (exponent : e.toExpr = .ok z) :
      ExprStep (.power b e) (.power y z)
  | dagger {f : Formula} {y : Expr} (part : f.toExpr = .ok y) :
      ExprStep (.dagger f) (.apply .conjugate [y])
  | group {f : Formula} {y : Expr} (part : f.toExpr = .ok y) : ExprStep (.group f) (.group y)
  | fraction {n d : Formula} {y z : Expr} (plain : isDerivative n d = false)
      (numerator : n.toExpr = .ok y) (denominator : d.toExpr = .ok z) :
      ExprStep (.fraction n d) (.fraction y z)
  | binomial {t b : Formula} {y z : Expr} (top : t.toExpr = .ok y) (bottom : b.toExpr = .ok z) :
      ExprStep (.binomial t b) (.binomial y z)
  | root {index : Option Formula} {f : Formula} {y : Expr} {i : Option Expr}
      (radicand : f.toExpr = .ok y) (degree : optionToExpr index = .ok i) :
      ExprStep (.root index f) (.apply .sqrt (y :: i.toList))
  | apply {f : Builtin} {args : List Formula} {xs : List Expr} (delimited : Bool)
      (count : f.accepts args.length = true) (parts : listToExpr args = .ok xs) :
      ExprStep (.apply f args delimited) (.apply f xs)
  | known {name : String} {f : Builtin} {args : List Formula} {xs : List Expr}
      (named : Builtin.ofName? name = some f) (count : f.accepts args.length = true)
      (parts : listToExpr args = .ok xs) : ExprStep (.call name args) (.apply f xs)
  | call {name : String} {args : List Formula} {xs : List Expr}
      (unnamed : Builtin.ofName? name = none) (parts : listToExpr args = .ok xs) :
      ExprStep (.call name args) (.call name xs)
  | powered {f : Builtin} {e : Formula} {args : List Formula} {y : Expr} {xs : List Expr}
      (count : f.accepts args.length = true) (exponent : e.toExpr = .ok y)
      (parts : listToExpr args = .ok xs) : ExprStep (.powered f e args) (.powered f y xs)
  | factorial {f : Formula} {y : Expr} (part : f.toExpr = .ok y) :
      ExprStep (.factorial f) (.factorial y)
  | aggregate (kind : Aggregate) (name : String) {lower upper body : Formula} {y z w : Expr}
      (first : lower.toExpr = .ok y) (last : upper.toExpr = .ok z) (inside : body.toExpr = .ok w) :
      ExprStep (.aggregate kind name lower upper body) (.aggregate kind name y z w)
  | integral {lower upper : Option Formula} {body integrand : Formula} {name : String}
      {y z : Option Expr} {w : Expr} (split : body.splitDifferential = .ok (integrand, name))
      (first : optionToExpr lower = .ok y) (last : optionToExpr upper = .ok z)
      (inside : integrand.toExpr = .ok w) :
      ExprStep (.integral lower upper body) (.integral y z w name)
  | limit (name : String) (side : Option Side) {approach body : Formula} {y z : Expr}
      (target : approach.toExpr = .ok y) (inside : body.toExpr = .ok z) :
      ExprStep (.limit name approach side body) (.limit name y side z)
  | relation (r : Relation) {l f : Formula} {y z : Expr} (left : l.toExpr = .ok y)
      (right : f.toExpr = .ok z) : ExprStep (.relation r l f) (.relation r y z)

theorem exprStep_of_toExpr {f : Formula} {x : Expr} (h : f.toExpr = .ok x) : ExprStep f x := by
  cases f with
  | number digits =>
    rw [toExpr] at h
    split at h
    · next a read =>
      obtain rfl := Except.ok.inj h
      exact .number read
    · simp at h
  | symbol | infinity =>
    rw [toExpr] at h
    obtain rfl := Except.ok.inj h
    constructor
  | binary | juxtaposed | power | binomial | relation | limit =>
    simp only [toExpr, bind_eq_ok, pure_eq_ok] at h
    obtain ⟨y, hy, z, hz, rfl⟩ := h
    constructor <;> assumption
  | negated | dagger | group | factorial =>
    simp only [toExpr, bind_eq_ok, pure_eq_ok] at h
    obtain ⟨y, hy, rfl⟩ := h
    constructor
    exact hy
  | fraction n d =>
    rw [toExpr] at h
    split at h
    · simp at h
    · next plain =>
      simp only [bind_eq_ok, pure_eq_ok] at h
      obtain ⟨y, hy, z, hz, rfl⟩ := h
      exact .fraction (by simpa using plain) hy hz
  | root index f =>
    simp only [toExpr, bind_eq_ok, pure_eq_ok] at h
    obtain ⟨y, hy, i, hi, rfl⟩ := h
    exact .root hy hi
  | apply f args delimited =>
    simp only [toExpr, bind_eq_ok, pure_eq_ok, checkCount_eq_ok] at h
    obtain ⟨_, count, xs, parts, rfl⟩ := h
    exact .apply delimited count parts
  | call name args =>
    rw [toExpr] at h
    split at h
    · next f named =>
      simp only [bind_eq_ok, pure_eq_ok, checkCount_eq_ok] at h
      obtain ⟨_, count, xs, parts, rfl⟩ := h
      exact .known named count parts
    · next unnamed =>
      simp only [bind_eq_ok, pure_eq_ok] at h
      obtain ⟨xs, parts, rfl⟩ := h
      exact .call unnamed parts
  | powered f e args =>
    simp only [toExpr, bind_eq_ok, pure_eq_ok, checkCount_eq_ok] at h
    obtain ⟨_, count, y, hy, xs, parts, rfl⟩ := h
    exact .powered count hy parts
  | primed | differential =>
    rw [toExpr] at h
    simp at h
  | aggregate kind name lower upper body =>
    simp only [toExpr, bind_eq_ok, pure_eq_ok] at h
    obtain ⟨y, hy, z, hz, w, hw, rfl⟩ := h
    exact .aggregate kind name hy hz hw
  | integral lower upper body =>
    rw [toExpr] at h
    split at h
    · simp at h
    · next integrand name split =>
      simp only [bind_eq_ok, pure_eq_ok] at h
      obtain ⟨y, hy, z, hz, w, hw, rfl⟩ := h
      exact .integral split hy hz hw

theorem listToExpr_eq_ok {args : List Formula} {xs : List Expr} :
    listToExpr args = .ok xs ↔ List.Forall₂ (fun f x => f.toExpr = .ok x) args xs := by
  induction args generalizing xs with
  | nil => cases xs <;> simp [listToExpr]
  | cons f rest ih =>
    simp only [listToExpr, bind_eq_ok, pure_eq_ok, ih]
    constructor
    · rintro ⟨y, hy, ys, hys, rfl⟩
      exact .cons hy hys
    · intro h
      cases h with
      | cons hy hys => exact ⟨_, hy, _, hys, rfl⟩

theorem length_of_listToExpr {args : List Formula} {xs : List Expr}
    (h : listToExpr args = .ok xs) : xs.length = args.length :=
  (listToExpr_eq_ok.1 h).length_eq.symm

theorem optionToExpr_eq_ok {arg : Option Formula} {x? : Option Expr} :
    optionToExpr arg = .ok x? ↔ Option.Rel (fun f x => f.toExpr = .ok x) arg x? := by
  cases arg with
  | none => cases x? <;> simp [optionToExpr]
  | some f => cases x? <;> simp [optionToExpr]

theorem size_lt_sizeAll {a : Formula} {args : List Formula} (h : a ∈ args) :
    a.size < sizeAll args := by
  induction args with
  | nil => cases h
  | cons b rest ih =>
    simp only [sizeAll]
    rcases List.mem_cons.1 h with rfl | h
    · omega
    · have := ih h
      omega

theorem size_lt_sizeOption {a : Formula} {arg : Option Formula} (h : a ∈ arg) :
    a.size < sizeOption arg := by
  obtain rfl := Option.mem_def.1 h
  simp [sizeOption]

def parts : Formula → List Formula
  | number _ | symbol _ | infinity | differential _ _ => []
  | binary _ l r | juxtaposed _ l r | relation _ l r | power l r | fraction l r | binomial l r =>
    [l, r]
  | negated x | dagger x | group x | factorial x | primed x => [x]
  | root index x => x :: index.toList
  | apply _ args _ | call _ args => args
  | powered _ exponent args => exponent :: args
  | aggregate _ _ lower upper body => [lower, upper, body]
  | integral lower upper body => lower.toList ++ (upper.toList ++ [body])
  | limit _ approach _ body => [approach, body]

theorem size_lt_of_mem_parts {f g : Formula} (h : g ∈ f.parts) : g.size < f.size := by
  cases f with
  | number | symbol | infinity | differential => cases h
  | root index x =>
    rcases List.mem_cons.1 h with rfl | h
    · simp only [size]; omega
    · have := size_lt_sizeOption (Option.mem_toList.1 h)
      simp only [size]; omega
  | apply _ args _ | call _ args =>
    have : g.size < sizeAll args := size_lt_sizeAll h
    simp only [size]; omega
  | powered _ e args =>
    rcases List.mem_cons.1 h with rfl | h
    · simp only [size]; omega
    · have := size_lt_sizeAll h
      simp only [size]; omega
  | integral lower upper body =>
    simp only [parts, List.mem_append, Option.mem_toList, List.mem_singleton] at h
    rcases h with h | h | rfl
    · have := size_lt_sizeOption h
      simp only [size]; omega
    · have := size_lt_sizeOption h
      simp only [size]; omega
    · simp only [size]; omega
  | _ =>
    simp only [parts, List.mem_cons, List.not_mem_nil, or_false] at h
    rcases h with rfl | rfl | rfl <;> simp only [size] <;> omega

def integrand (body : Formula) : Formula :=
  match body.splitDifferential with
  | .ok (g, _) => g
  | .error _ => body

def operands : Formula → List Formula
  | integral lower upper body => lower.toList ++ (upper.toList ++ [body.integrand])
  | f => f.parts

theorem integrand_of_splitDifferential {body g : Formula} {name : String}
    (h : body.splitDifferential = .ok (g, name)) : body.integrand = g := by
  simp [integrand, h]

theorem mem_operands {f g : Formula} (h : g ∈ f.operands) :
    g ∈ f.parts ∨ ∃ body ∈ f.parts, ∃ name, body.splitDifferential = .ok (g, name) := by
  cases f with
  | integral lower upper body =>
    simp only [operands, parts, List.mem_append, List.mem_singleton] at h ⊢
    rcases h with h | h | rfl
    · exact .inl (.inl h)
    · exact .inl (.inr (.inl h))
    · unfold integrand
      split
      · next g name hs => exact .inr ⟨body, .inr (.inr rfl), name, hs⟩
      · exact .inl (.inr (.inr rfl))
  | _ => exact .inl h

theorem size_lt_of_mem_operands {f g : Formula} (h : g ∈ f.operands) : g.size < f.size := by
  rcases mem_operands h with h | ⟨body, hb, name, hs⟩
  · exact size_lt_of_mem_parts h
  · exact Nat.lt_of_le_of_lt (size_of_splitDifferential hs) (size_lt_of_mem_parts hb)

/-- A property that goes over to the parts of a formula, and to what is made of
them when a differential is taken out of a body. -/
structure Hereditary (P : Formula → Prop) : Prop where
  one : P (.number "1")
  fraction {n d : Formula} (hn : P n) (hd : P d) : P (.fraction n d)
  of_mem_parts {f g : Formula} (h : P f) (hg : g ∈ f.parts) : P g

namespace Hereditary

variable {P Q : Formula → Prop} {f g l r : Formula} {name : String}

theorem and (hP : Hereditary P) (hQ : Hereditary Q) : Hereditary fun f => P f ∧ Q f where
  one := ⟨hP.one, hQ.one⟩
  fraction hn hd := ⟨hP.fraction hn.1 hd.1, hQ.fraction hn.2 hd.2⟩
  of_mem_parts h hg := ⟨hP.of_mem_parts h.1 hg, hQ.of_mem_parts h.2 hg⟩

theorem ungrouped (hP : Hereditary P) (h : P f) : P f.ungrouped := by
  cases f with
  | group x => exact hP.of_mem_parts h List.mem_cons_self
  | _ => exact h

theorem splitPair (hl : P l) (hr : P r) (h : Formula.splitPair l r = .ok (f, name)) :
    P f ∧ P (.differential (some name) false) := by
  unfold Formula.splitPair at h
  split at h
  · obtain ⟨rfl, rfl⟩ := Prod.mk.inj (Except.ok.inj h)
    exact ⟨hl, hr⟩
  · obtain ⟨rfl, rfl⟩ := Prod.mk.inj (Except.ok.inj h)
    exact ⟨hr, hl⟩
  · cases h

theorem splitDifferential (hP : Hereditary P) {body : Formula} (hb : P body)
    (h : body.splitDifferential = .ok (f, name)) : P f ∧ P (.differential (some name) false) := by
  fun_induction Formula.splitDifferential body generalizing f name with
  | case1 =>
    obtain ⟨rfl, rfl⟩ := Prod.mk.inj (Except.ok.inj h)
    exact ⟨hP.one, hb⟩
  | case2 y _ ih => exact ih (hP.of_mem_parts hb (by simp [parts])) h
  | case3 => cases h
  | case4 _ l r left right hp =>
    have hl : P l := hP.of_mem_parts hb (by simp [parts])
    have hr : P r := hP.of_mem_parts hb (by simp [parts])
    unfold ungroupedPair at hp
    split at hp
    · obtain ⟨rfl, rfl⟩ := Prod.mk.inj hp
      exact splitPair (hP.ungrouped hl) (hP.ungrouped hr) h
    · obtain ⟨rfl, rfl⟩ := Prod.mk.inj hp
      exact splitPair hl hr h
  | case5 n d ih =>
    simp only [bind_eq_ok, Prod.exists, pure_eq_ok, Prod.mk.injEq] at h
    obtain ⟨y, v, hs, rfl, rfl⟩ := h
    obtain ⟨hy, hv⟩ := ih (hP.of_mem_parts hb (by simp [parts])) hs
    exact ⟨hP.fraction hy (hP.of_mem_parts hb (by simp [parts])), hv⟩
  | case6 => cases h

theorem of_mem_operands (hP : Hereditary P) (h : P f) (hg : g ∈ f.operands) : P g := by
  rcases mem_operands hg with hg | ⟨body, hbody, name, hs⟩
  · exact hP.of_mem_parts h hg
  · exact (hP.splitDifferential (hP.of_mem_parts h hbody) hs).1

end Hereditary

theorem ExprStep.forall₂_operands {f : Formula} {x : Expr} (h : ExprStep f x) :
    List.Forall₂ (fun g y => g.toExpr = .ok y) f.operands x.children := by
  have option {arg : Option Formula} {x? : Option Expr} (hx : optionToExpr arg = .ok x?) :
      List.Forall₂ (fun g y => g.toExpr = .ok y) arg.toList x?.toList := by
    cases optionToExpr_eq_ok.1 hx with
    | none => exact .nil
    | some hy => exact .cons hy .nil
  cases h with
  | number | symbol | infinity => exact .nil
  | negated hx | dagger hx | group hx | factorial hx => exact .cons hx .nil
  | binary _ hl hr | juxtaposed _ hl hr | power hl hr | fraction _ hl hr | binomial hl hr
  | limit _ _ hl hr | relation _ hl hr => exact .cons hl (.cons hr .nil)
  | root hx hi => exact .cons hx (option hi)
  | apply _ _ hx | known _ _ hx | call _ hx => exact listToExpr_eq_ok.1 hx
  | powered _ he hx => exact .cons he (listToExpr_eq_ok.1 hx)
  | aggregate _ _ hl hu hb => exact .cons hl (.cons hu (.cons hb .nil))
  | integral hs hl hu hx =>
    rw [operands, integrand_of_splitDifferential hs]
    exact List.rel_append (option hl) (List.rel_append (option hu) (.cons hx .nil))

theorem ExprStep.exists_operand {f : Formula} {x y : Expr} (h : ExprStep f x)
    (hy : y ∈ x.children) : ∃ g ∈ f.operands, g.toExpr = .ok y := by
  obtain ⟨i, hi, rfl⟩ := List.getElem_of_mem hy
  have hlen := h.forall₂_operands.length_eq
  exact ⟨_, List.getElem_mem (hlen ▸ hi), h.forall₂_operands.get (hlen ▸ hi) hi⟩

theorem checkCount_ne_number {f : Builtin} {count : Nat} {digits : String} :
    checkCount f count ≠ .error (.number digits) := by
  unfold checkCount
  split <;> simp

theorem exists_of_listToExpr_eq_error {args : List Formula} {u : Unsupported}
    (h : listToExpr args = .error u) : ∃ g ∈ args, g.toExpr = .error u := by
  induction args with
  | nil => simp [listToExpr] at h
  | cons f rest ih =>
    rw [listToExpr] at h
    rcases error_of_two h with h | h
    · exact ⟨f, List.mem_cons_self, h⟩
    · obtain ⟨g, hg, h⟩ := ih h
      exact ⟨g, List.mem_cons_of_mem f hg, h⟩

theorem exists_of_optionToExpr_eq_error {arg : Option Formula} {u : Unsupported}
    (h : optionToExpr arg = .error u) : ∃ g ∈ arg.toList, g.toExpr = .error u := by
  cases arg with
  | none => simp [optionToExpr] at h
  | some f =>
    rw [optionToExpr] at h
    exact ⟨f, by simp, error_of_one h⟩

theorem splitDifferential_ne_number {body : Formula} {digits : String} :
    body.splitDifferential ≠ .error (.number digits) := by
  fun_induction splitDifferential body with
  | case1 | case3 | case6 => simp
  | case2 y _ ih => exact ih
  | case4 _ l r left right hp =>
    unfold splitPair
    split
    · simp
    · simp
    · split <;> simp
  | case5 n d ih =>
    rw [Ne, bind_eq_error]
    rintro (h | ⟨y, -, h⟩)
    · exact ih h
    · cases h

theorem number_or_operand_of_error {f : Formula} {digits : String}
    (h : f.toExpr = .error (.number digits)) :
    (f = number digits ∧ Decimal.read? digits.toList = none) ∨
      ∃ g ∈ f.operands, g.toExpr = .error (.number digits) := by
  cases f with
  | number ds =>
    rw [toExpr] at h
    split at h
    · cases h
    · next hread =>
      obtain rfl := Unsupported.number.inj (Except.error.inj h)
      exact .inl ⟨rfl, hread⟩
  | symbol | infinity | primed => simp [toExpr] at h
  | differential _ isPartial => cases isPartial <;> simp [toExpr] at h
  | binary _ l r | juxtaposed _ l r | power l r | binomial l r | relation _ l r | limit _ l _ r =>
    rw [toExpr] at h
    rcases error_of_two h with h | h
    · exact .inr ⟨l, by simp [operands, parts], h⟩
    · exact .inr ⟨r, by simp [operands, parts], h⟩
  | negated x | dagger x | group x | factorial x =>
    rw [toExpr] at h
    exact .inr ⟨x, by simp [operands, parts], error_of_one h⟩
  | fraction n d =>
    rw [toExpr] at h
    split at h
    · simp at h
    · rcases error_of_two h with h | h
      · exact .inr ⟨n, by simp [operands, parts], h⟩
      · exact .inr ⟨d, by simp [operands, parts], h⟩
  | root index x =>
    rw [toExpr] at h
    rcases error_of_two h with h | h
    · exact .inr ⟨x, by simp [operands, parts], h⟩
    · obtain ⟨g, hg, h⟩ := exists_of_optionToExpr_eq_error h
      exact .inr ⟨g, List.mem_cons_of_mem x hg, h⟩
  | apply f args =>
    rw [toExpr] at h
    rcases error_of_two h with h | h
    · exact absurd h checkCount_ne_number
    · exact .inr (exists_of_listToExpr_eq_error h)
  | call name args =>
    rw [toExpr] at h
    split at h
    · rcases error_of_two h with h | h
      · exact absurd h checkCount_ne_number
      · exact .inr (exists_of_listToExpr_eq_error h)
    · exact .inr (exists_of_listToExpr_eq_error (error_of_one h))
  | powered f e args =>
    rw [toExpr] at h
    rcases error_of_three h with h | h | h
    · exact absurd h checkCount_ne_number
    · exact .inr ⟨e, List.mem_cons_self, h⟩
    · obtain ⟨g, hg, h⟩ := exists_of_listToExpr_eq_error h
      exact .inr ⟨g, List.mem_cons_of_mem e hg, h⟩
  | aggregate kind name lower upper body =>
    rw [toExpr] at h
    rcases error_of_three h with h | h | h
    · exact .inr ⟨lower, by simp [operands, parts], h⟩
    · exact .inr ⟨upper, by simp [operands, parts], h⟩
    · exact .inr ⟨body, by simp [operands, parts], h⟩
  | integral lower upper body =>
    rw [toExpr] at h
    split at h
    · next u hsplit =>
      obtain rfl := Except.error.inj h
      exact absurd hsplit splitDifferential_ne_number
    · next x name hsplit =>
      rw [operands, integrand_of_splitDifferential hsplit]
      rcases error_of_three h with h | h | h
      · obtain ⟨g, hg, h⟩ := exists_of_optionToExpr_eq_error h
        exact .inr ⟨g, by simp [hg], h⟩
      · obtain ⟨g, hg, h⟩ := exists_of_optionToExpr_eq_error h
        exact .inr ⟨g, by simp [hg], h⟩
      · exact .inr ⟨x, by simp, h⟩

theorem Hereditary.number_of_error {P : Formula → Prop} (hP : Hereditary P) {f : Formula}
    {digits : String} (hf : P f) (h : f.toExpr = .error (.number digits)) :
    P (.number digits) ∧ Decimal.read? digits.toList = none := by
  -- The failure is handed down from operand to operand until it is at a number.
  induction hn : f.size using Nat.strongRecOn generalizing f with
  | _ n ih =>
    obtain ⟨rfl, hread⟩ | ⟨g, hg, h⟩ := number_or_operand_of_error h
    · exact ⟨hf, hread⟩
    · exact ih g.size (hn ▸ size_lt_of_mem_operands hg) (hP.of_mem_operands hf hg) h rfl

end Formula

end AnswerKey

import AnswerKey.Proofs.Expr.Occurrence
import Mathlib.Data.List.Perm.Basic

/-! Where the differentials of a formula go. A formula with an expression has no
primes, and its differentials are one for each integral, each in the body of its
integral and in that of none inside. -/
namespace AnswerKey

namespace Formula

variable {α : Type}

/-- What a formula leads to: all its parts, or those outside the body of an
integral. -/
def branches (bodies : Bool) : Formula → List Formula
  | integral lower upper body =>
    lower.toList ++ (upper.toList ++ if bodies then [body] else [])
  | f => f.parts

theorem mem_parts_of_mem_branches {bodies : Bool} {f g : Formula} (h : g ∈ f.branches bodies) :
    g ∈ f.parts := by
  cases f with
  | integral lower upper body =>
    simp only [branches, List.mem_append] at h
    rcases h with h | h | h
    · simp [parts, h]
    · simp [parts, h]
    · cases bodies with
      | true => simp_all [parts]
      | false => cases h
  | _ => exact h

/-- What is found at a formula and at those that it leads to, outside the bodies
of integrals or everywhere. -/
def collect (own : Formula → List α) (bodies : Bool) (f : Formula) : List α :=
  own f ++ (f.branches bodies).attach.flatMap fun g => g.1.collect own bodies
termination_by f.size
decreasing_by exact size_lt_of_mem_parts (mem_parts_of_mem_branches g.2)

theorem collect_eq (own : Formula → List α) (bodies : Bool) (f : Formula) :
    f.collect own bodies = own f ++ (f.branches bodies).flatMap (collect own bodies) := by
  rw [collect]
  simp [List.flatMap_subtype]

abbrev Marker := Option String × Bool

def marker : Formula → List Marker
  | differential name isPartial => [(name, isPartial)]
  | _ => []

def prime : Formula → List Formula
  | primed f => [f]
  | _ => []

def body : Formula → List Formula
  | integral _ _ f => [f]
  | _ => []

def differentials (f : Formula) : List Marker := f.collect marker true

def looseDifferentials (f : Formula) : List Marker := f.collect marker false

def primes (f : Formula) : List Formula := f.collect prime true

def integralBodies (f : Formula) : List Formula := f.collect body true

section

variable {own : Formula → List α} {bodies : Bool}

/-- Nothing is found at the shapes along which the body of an integral is split. -/
structure Passive (own : Formula → List α) : Prop where
  atNumber (digits : String) : own (number digits) = []
  atGroup (f : Formula) : own (group f) = []
  atJuxtaposed (a : Adjacency) (l r : Formula) : own (juxtaposed a l r) = []
  atFraction (n d : Formula) : own (fraction n d) = []

theorem collect_differential (name : Option String) (isPartial : Bool) :
    (differential name isPartial).collect own bodies = own (differential name isPartial) := by
  simp [collect_eq, branches, parts]

theorem Passive.collect_group (hown : Passive own) (f : Formula) :
    (group f).collect own bodies = f.collect own bodies := by
  rw [collect_eq]
  simp [hown.atGroup, branches, parts]

theorem Passive.collect_juxtaposed (hown : Passive own) (a : Adjacency) (l r : Formula) :
    (juxtaposed a l r).collect own bodies = l.collect own bodies ++ r.collect own bodies := by
  rw [collect_eq]
  simp [hown.atJuxtaposed, branches, parts]

theorem Passive.collect_fraction (hown : Passive own) (n d : Formula) :
    (fraction n d).collect own bodies = n.collect own bodies ++ d.collect own bodies := by
  rw [collect_eq]
  simp [hown.atFraction, branches, parts]

theorem Passive.collect_number (hown : Passive own) (digits : String) :
    (number digits).collect own bodies = [] := by
  rw [collect_eq]
  simp [hown.atNumber, branches, parts]

theorem Passive.collect_ungrouped (hown : Passive own) (f : Formula) :
    f.ungrouped.collect own bodies = f.collect own bodies := by
  cases f with
  | group f => exact (hown.collect_group f).symm
  | _ => rfl

theorem Passive.collect_ungroupedPair (hown : Passive own) (bodies : Bool)
    {l r left right : Formula} (h : ungroupedPair l r = (left, right)) :
    left.collect own bodies = l.collect own bodies ∧
      right.collect own bodies = r.collect own bodies := by
  unfold ungroupedPair at h
  split at h
  · obtain ⟨rfl, rfl⟩ := Prod.mk.inj h
    exact ⟨hown.collect_ungrouped l, hown.collect_ungrouped r⟩
  · obtain ⟨rfl, rfl⟩ := Prod.mk.inj h
    exact ⟨rfl, rfl⟩

theorem collect_of_splitPair {left right g : Formula} {name : String}
    (h : splitPair left right = .ok (g, name)) :
    (left.collect own bodies ++ right.collect own bodies).Perm
      (own (differential (some name) false) ++ g.collect own bodies) := by
  unfold splitPair at h
  split at h
  · obtain ⟨rfl, rfl⟩ := Prod.mk.inj (Except.ok.inj h)
    rw [collect_differential]
    exact List.perm_append_comm
  · obtain ⟨rfl, rfl⟩ := Prod.mk.inj (Except.ok.inj h)
    rw [collect_differential]
  · cases h

/-- Splitting the body of an integral takes one differential out and loses
nothing else. -/
theorem Passive.collect_of_splitDifferential (hown : Passive own) (bodies : Bool)
    {body g : Formula} {name : String} (h : body.splitDifferential = .ok (g, name)) :
    (body.collect own bodies).Perm
      (own (differential (some name) false) ++ g.collect own bodies) := by
  fun_induction splitDifferential body generalizing g name with
  | case1 name =>
    obtain ⟨rfl, rfl⟩ := Prod.mk.inj (Except.ok.inj h)
    rw [collect_differential, hown.collect_number, List.append_nil]
  | case2 f _ ih =>
    rw [hown.collect_group]
    exact ih h
  | case3 => cases h
  | case4 a l r left right hp =>
    obtain ⟨hl, hr⟩ := hown.collect_ungroupedPair bodies hp
    rw [hown.collect_juxtaposed, ← hl, ← hr]
    exact collect_of_splitPair h
  | case5 n d ih =>
    simp only [bind_eq_ok, Prod.exists, pure_eq_ok, Prod.mk.injEq] at h
    obtain ⟨m, v, hs, rfl, rfl⟩ := h
    rw [hown.collect_fraction, hown.collect_fraction, ← List.append_assoc]
    exact (ih hs).append_right _
  | case6 => cases h

end

theorem passive_marker : Passive marker :=
  ⟨fun _ => rfl, fun _ => rfl, fun _ _ _ => rfl, fun _ _ => rfl⟩

theorem passive_prime : Passive prime :=
  ⟨fun _ => rfl, fun _ => rfl, fun _ _ _ => rfl, fun _ _ => rfl⟩

theorem passive_body : Passive body :=
  ⟨fun _ => rfl, fun _ => rfl, fun _ _ _ => rfl, fun _ _ => rfl⟩

theorem Passive.collect_integral {own : Formula → List α} (hown : Passive own)
    (lower upper : Option Formula) {body g : Formula} {name : String}
    (h : body.splitDifferential = .ok (g, name)) :
    ((integral lower upper body).collect own true).Perm
      (own (integral lower upper body) ++ (own (differential (some name) false) ++
        (integral lower upper body).operands.flatMap (collect own true))) := by
  have hbody := hown.collect_of_splitDifferential true h
  rw [collect_eq]
  simp only [branches, operands, integrand_of_splitDifferential h, List.flatMap_append,
    List.flatMap_singleton, if_true]
  refine List.Perm.append_left _ ?_
  -- The differential is moved out past what the bounds hold.
  exact (((hbody.append_left _).trans (List.perm_append_comm_assoc _ _ _)).append_left _).trans
    (List.perm_append_comm_assoc _ _ _)

end Formula

namespace Expr

def integralName : Expr → List String
  | integral _ _ _ name => [name]
  | _ => []

def integralNames (x : Expr) : List String := x.collect integralName

theorem integralNames_eq (x : Expr) :
    x.integralNames = x.integralName ++ x.children.flatMap integralNames :=
  collect_eq integralName x

end Expr

namespace Formula

/-- No primes and no loose differentials; the others are one for each integral,
and named as its variable. -/
structure Accounted (primes : List Formula) (loose all : List Marker) (bodies : List Formula)
    (names : List String) : Prop where
  noPrimes : primes = []
  noLoose : loose = []
  oneInEach : ∀ body ∈ bodies, ∃ name, body.looseDifferentials = [(some name, false)]
  named : all.Perm (names.map fun name => (some name, false))
  count : bodies.length = names.length

namespace Accounted

variable {primes primes' : List Formula} {loose all loose' all' : List Marker}
  {bodies bodies' : List Formula} {names names' : List String}

theorem nil : Accounted [] [] [] [] [] := ⟨rfl, rfl, by simp, .nil, rfl⟩

theorem append (h : Accounted primes loose all bodies names)
    (h' : Accounted primes' loose' all' bodies' names') :
    Accounted (primes ++ primes') (loose ++ loose') (all ++ all') (bodies ++ bodies')
      (names ++ names') where
  noPrimes := by rw [h.noPrimes, h'.noPrimes]; rfl
  noLoose := by rw [h.noLoose, h'.noLoose]; rfl
  oneInEach body hb := (List.mem_append.1 hb).elim (h.oneInEach body) (h'.oneInEach body)
  named := by
    rw [List.map_append]
    exact h.named.append h'.named
  count := by rw [List.length_append, List.length_append, h.count, h'.count]

theorem flatMap {gs : List Formula} {ys : List Expr}
    (h : List.Forall₂ (fun (g : Formula) (y : Expr) => Accounted g.primes g.looseDifferentials
      g.differentials g.integralBodies y.integralNames) gs ys) :
    Accounted (gs.flatMap Formula.primes) (gs.flatMap looseDifferentials)
      (gs.flatMap differentials) (gs.flatMap integralBodies) (ys.flatMap Expr.integralNames) := by
  induction h with
  | nil => exact nil
  | cons hg _ ih => exact hg.append ih

end Accounted

theorem ExprStep.accounted {f : Formula} {x : Expr} (step : ExprStep f x)
    (h : Accounted (f.operands.flatMap primes) (f.operands.flatMap looseDifferentials)
      (f.operands.flatMap differentials) (f.operands.flatMap integralBodies)
      (x.children.flatMap Expr.integralNames)) :
    Accounted f.primes f.looseDifferentials f.differentials f.integralBodies x.integralNames := by
  cases step with
  | @integral lower upper body g name y z w hs _ _ _ =>
    obtain ⟨noLower, noUpper, noIntegrand⟩ : lower.toList.flatMap looseDifferentials = [] ∧
        upper.toList.flatMap looseDifferentials = [] ∧ g.looseDifferentials = [] := by
      simpa only [operands, integrand_of_splitDifferential hs, List.flatMap_append,
        List.flatMap_singleton, List.append_eq_nil_iff] using h.noLoose
    have inBody : body.looseDifferentials = [(some name, false)] := by
      have := passive_marker.collect_of_splitDifferential false hs
      rw [show g.collect marker false = [] from noIntegrand] at this
      exact List.perm_singleton.1 this
    have bodies := passive_body.collect_integral lower upper hs
    exact {
      noPrimes := by
        have := passive_prime.collect_integral lower upper hs
        exact (this.trans (.of_eq h.noPrimes)).eq_nil
      noLoose := by
        rw [looseDifferentials, collect_eq]
        simp only [branches, List.flatMap_append]
        exact List.append_eq_nil_iff.2 ⟨rfl, List.append_eq_nil_iff.2 ⟨noLower,
          List.append_eq_nil_iff.2 ⟨noUpper, rfl⟩⟩⟩
      oneInEach := by
        intro f hf
        rcases List.mem_cons.1 (bodies.mem_iff.1 hf) with rfl | hf
        · exact ⟨name, inBody⟩
        · exact h.oneInEach f hf
      named := by
        rw [Expr.integralNames_eq]
        have := passive_marker.collect_integral lower upper hs
        exact this.trans (h.named.cons (some name, false))
      count := by
        rw [Expr.integralNames_eq]
        exact bodies.length_eq.trans (congrArg (· + 1) h.count) }
  | _ =>
    simp only [primes, looseDifferentials, differentials, integralBodies,
      Expr.integralNames_eq] at h ⊢
    rw [collect_eq, collect_eq, collect_eq, collect_eq]
    exact h

theorem accounted_of_toExpr {f : Formula} {x : Expr} (h : f.toExpr = .ok x) :
    Accounted f.primes f.looseDifferentials f.differentials f.integralBodies x.integralNames := by
  have step := exprStep_of_toExpr h
  have smaller : ∀ g ∈ f.operands, g.size < f.size := fun _ => size_lt_of_mem_operands
  refine step.accounted (.flatMap ?_)
  exact ((List.forall₂_and_left _ _).2 ⟨smaller, step.forall₂_operands⟩).imp
    fun g y hg => accounted_of_toExpr hg.2
termination_by f.size
decreasing_by exact hg.1

/-- No differential gets lost on the way from a formula to its expression. The
formula has neither primes nor partial differentials, in the body of each integral
there is exactly one differential outside the integrals inside, and there is none
outside of all integrals. The variables of the integrals of the expression are the
names of the differentials. -/
theorem differentials_of_toExpr {f : Formula} {x : Expr} (h : f.toExpr = .ok x) :
    f.primes = [] ∧
    (∀ marker ∈ f.differentials, marker.2 = false) ∧
    f.looseDifferentials = [] ∧
    (∀ body ∈ f.integralBodies, ∃ name, body.looseDifferentials = [(some name, false)]) ∧
    f.differentials.length = f.integralBodies.length ∧
    f.integralBodies.length = x.integralNames.length ∧
    (f.differentials.map (·.1)).Perm (x.integralNames.map some) := by
  have hf := accounted_of_toExpr h
  refine ⟨hf.noPrimes, fun marker hm => ?_, hf.noLoose, hf.oneInEach, ?_, hf.count, ?_⟩
  · obtain ⟨name, -, rfl⟩ := List.mem_map.1 (hf.named.mem_iff.1 hm)
    rfl
  · rw [hf.named.length_eq, List.length_map, hf.count]
  · have := hf.named.map (·.1)
    rwa [List.map_map] at this

/-- With the outer differential in braces before the inner integral, there are two
differentials, for the variables `x` and `t`. -/
theorem differentials_of_double_integral :
    ∃ f : Formula, f.toExpr =
        .ok (.integral none none (.integral none none (.symbol "t") "t") "x") ∧
      f.differentials.length = 2 ∧ (f.differentials.map (·.1)).Perm [some "x", some "t"] := by
  have h : (integral none none (juxtaposed .groups (group (differential (some "x") false))
      (integral none none (juxtaposed .differential (symbol "t")
        (differential (some "t") false))))).toExpr =
      .ok (.integral none none (.integral none none (.symbol "t") "t") "x") := by cbv
  have names : Expr.integralNames
      (.integral none none (.integral none none (.symbol "t") "t") "x") = ["x", "t"] := by
    simp [Expr.integralNames_eq, Expr.children, Expr.integralName]
  obtain ⟨-, -, -, -, hdiff, hcount, hperm⟩ := differentials_of_toExpr h
  rw [names] at hcount hperm
  exact ⟨_, h, hdiff.trans hcount, hperm⟩

end Formula

end AnswerKey

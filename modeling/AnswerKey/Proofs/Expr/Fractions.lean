import AnswerKey.Proofs.Expr.OfFormula

/-! Integrals over fractions. The differential may stand in the numerator or beside
the fraction, in front or behind, and with braces; the integral is the same. -/
namespace AnswerKey.Formula

/-- The bodies that integrate the fraction of `f` and `g` over `name`. A lone
differential in the numerator stands for a one times the differential. -/
inductive FractionBody (f g : Formula) (name : String) : Formula → Prop
  | behind (a : Adjacency) :
      FractionBody f g name (fraction (juxtaposed a f (differential (some name) false)) g)
  | inFront (a : Adjacency) :
      FractionBody f g name (fraction (juxtaposed a (differential (some name) false) f) g)
  | braced (a : Adjacency) :
      FractionBody f g name
        (fraction (juxtaposed a (group f) (group (differential (some name) false))) g)
  | outside (a : Adjacency) :
      FractionBody f g name (juxtaposed a (fraction f g) (differential (some name) false))
  | outsideInFront (a : Adjacency) :
      FractionBody f g name (juxtaposed a (differential (some name) false) (fraction f g))
  | grouped (a : Adjacency) :
      FractionBody f g name (group (juxtaposed a (fraction f g) (differential (some name) false)))
  | alone (one : f = number "1") :
      FractionBody f g name (fraction (differential (some name) false) g)

variable {f g l r n d body body' : Formula} {name : String} {lower upper : Option Formula} {x : Expr}

theorem toExpr_integral_eq_ok : (integral lower upper body).toExpr = .ok x ↔
    ∃ integrand name y z w, body.splitDifferential = .ok (integrand, name) ∧
      optionToExpr lower = .ok y ∧ optionToExpr upper = .ok z ∧ integrand.toExpr = .ok w ∧
      x = .integral y z w name := by
  constructor
  · intro h
    cases exprStep_of_toExpr h with
    | integral split first last inside => exact ⟨_, _, _, _, _, split, first, last, inside, rfl⟩
  · rintro ⟨integrand, name, y, z, w, split, first, last, inside, rfl⟩
    rw [toExpr]
    split
    · next failed => cases failed.symm.trans split
    · next found =>
      obtain ⟨rfl, rfl⟩ := Prod.mk.inj (Except.ok.inj (found.symm.trans split))
      simp [first, last, inside]

theorem toExpr_fraction_of_differential (h : f.ungrouped.isDifferential = true) :
    (fraction f g).toExpr ≠ .ok x := by
  intro hx
  cases exprStep_of_toExpr hx with
  | fraction _ numerator =>
    cases exprStep_of_toExpr numerator with
    | group part => cases exprStep_of_toExpr part <;> cases h
    | _ => cases h

theorem splitDifferential_fraction (h : n.splitDifferential = .ok (f, name)) :
    (fraction n d).splitDifferential = .ok (fraction f d, name) := by
  rw [Formula.splitDifferential, h]
  rfl

theorem isDifferential_ungrouped (h : f.isDifferential = true) :
    f.ungrouped.isDifferential = true := by
  cases f with
  | differential => rfl
  | _ => cases h

theorem isDifferential_of_braced (h : f.isBracedDifferential = true) :
    f.ungrouped.isDifferential = true := by
  cases f with
  | group y => exact h
  | _ => cases h

theorem splitDifferential_juxtaposed {a : Adjacency} (pair : ungroupedPair l r = (f, g)) :
    (juxtaposed a l r).splitDifferential = splitPair f g := by
  rw [Formula.splitDifferential, pair]

theorem splitDifferential_behind (a : Adjacency) (f : Formula) (name : String) :
    (juxtaposed a f (differential (some name) false)).splitDifferential = .ok (f, name) ∨
      f.isBracedDifferential = true ∧
        (juxtaposed a f (differential (some name) false)).splitDifferential =
          .ok (f.ungrouped, name) := by
  by_cases braced : f.isBracedDifferential = true
  · have pair : ungroupedPair f (differential (some name) false) =
        (f.ungrouped, differential (some name) false) := by
      rw [ungroupedPair, braced]
      rfl
    exact .inr ⟨braced, splitDifferential_juxtaposed pair⟩
  · have pair : ungroupedPair f (differential (some name) false) =
        (f, differential (some name) false) := by
      rw [ungroupedPair, Bool.eq_false_iff.2 braced]
      rfl
    exact .inl (splitDifferential_juxtaposed pair)

theorem splitPair_inFront (name : String) (f : Formula) :
    splitPair (differential (some name) false) f = .ok (f, name) ∨
      f.isDifferential = true ∧ ∃ name', splitPair (differential (some name) false) f =
        .ok (differential (some name) false, name') := by
  by_cases whole : ∃ name', f = differential (some name') false
  · obtain ⟨name', rfl⟩ := whole
    exact .inr ⟨rfl, name', rfl⟩
  · left
    unfold splitPair
    split
    · next name' => exact absurd ⟨name', rfl⟩ whole
    · next same _ => rw [(Option.some.inj (differential.inj same).1)]
    · next other => exact absurd rfl (other name)

theorem splitDifferential_inFront (a : Adjacency) (f : Formula) (name : String) :
    (juxtaposed a (differential (some name) false) f).splitDifferential = .ok (f, name) ∨
      f.ungrouped.isDifferential = true ∧ ∃ m name', m.isDifferential = true ∧
        (juxtaposed a (differential (some name) false) f).splitDifferential = .ok (m, name') := by
  by_cases braced : f.isBracedDifferential = true
  · have inner := isDifferential_of_braced braced
    have pair : ungroupedPair (differential (some name) false) f =
        (differential (some name) false, f.ungrouped) := by
      rw [ungroupedPair, braced]
      rfl
    rw [splitDifferential_juxtaposed pair]
    obtain found | ⟨-, name', found⟩ := splitPair_inFront name f.ungrouped
    · exact .inr ⟨inner, _, name, inner, found⟩
    · exact .inr ⟨inner, _, name', rfl, found⟩
  · have pair : ungroupedPair (differential (some name) false) f =
        (differential (some name) false, f) := by
      rw [ungroupedPair, Bool.eq_false_iff.2 braced]
      rfl
    rw [splitDifferential_juxtaposed pair]
    obtain found | ⟨bare, name', found⟩ := splitPair_inFront name f
    · exact .inl found
    · exact .inr ⟨isDifferential_ungrouped bare, _, name', rfl, found⟩

/-- In every spelling the fraction is what is integrated. Only with a differential
as its numerator the spellings differ, and leave fractions that have no meaning. -/
theorem FractionBody.splitDifferential (h : FractionBody f g name body) :
    body.splitDifferential = .ok (fraction f g, name) ∨
      f.ungrouped.isDifferential = true ∧ ∃ m name', m.isDifferential = true ∧
        body.splitDifferential = .ok (fraction m g, name') := by
  cases h with
  | behind a =>
    obtain split | ⟨braced, split⟩ := splitDifferential_behind a f name
    · exact .inl (splitDifferential_fraction split)
    · have inner := isDifferential_of_braced braced
      exact .inr ⟨inner, _, name, inner, splitDifferential_fraction split⟩
  | inFront a =>
    obtain split | ⟨inner, m, name', isDifferential, split⟩ := splitDifferential_inFront a f name
    · exact .inl (splitDifferential_fraction split)
    · exact .inr ⟨inner, m, name', isDifferential, splitDifferential_fraction split⟩
  | braced a =>
    have pair : ungroupedPair (group f) (group (differential (some name) false)) =
        (f, differential (some name) false) := by
      simp [ungroupedPair, isBracedDifferential, isDifferential, ungrouped]
    exact .inl (splitDifferential_fraction (splitDifferential_juxtaposed pair))
  | outside a | outsideInFront a => exact .inl rfl
  | grouped a =>
    refine .inl ?_
    rw [Formula.splitDifferential, if_pos (by simp [containsDifferential])]
    rfl
  | alone one =>
    subst one
    exact .inl rfl

theorem FractionBody.toExpr_integral (h : FractionBody f g name body) :
    (integral lower upper body).toExpr = .ok x ↔ ∃ y z w, optionToExpr lower = .ok y ∧
      optionToExpr upper = .ok z ∧ (fraction f g).toExpr = .ok w ∧ x = .integral y z w name := by
  rw [toExpr_integral_eq_ok]
  obtain split | ⟨inner, m, name', isDifferential, split⟩ := h.splitDifferential
  · constructor
    · rintro ⟨integrand, name', y, z, w, found, first, last, inside, rfl⟩
      obtain ⟨rfl, rfl⟩ := Prod.mk.inj (Except.ok.inj (split.symm.trans found))
      exact ⟨y, z, w, first, last, inside, rfl⟩
    · rintro ⟨y, z, w, first, last, inside, rfl⟩
      exact ⟨_, _, y, z, w, split, first, last, inside, rfl⟩
  · constructor
    · rintro ⟨integrand, name'', y, z, w, found, -, -, inside, -⟩
      obtain ⟨rfl, rfl⟩ := Prod.mk.inj (Except.ok.inj (split.symm.trans found))
      exact absurd inside (toExpr_fraction_of_differential (isDifferential_ungrouped isDifferential))
    · rintro ⟨y, z, w, -, -, inside, -⟩
      exact absurd inside (toExpr_fraction_of_differential inner)

/-- All spellings of an integral over a fraction have the same meaning, or none has
one. They have one just when the bounds and the fraction do. -/
theorem toExpr_integral_spelling (h : FractionBody f g name body)
    (h' : FractionBody f g name body') :
    (integral lower upper body).toExpr.toOption = (integral lower upper body').toExpr.toOption ∧
      ∀ x, (integral lower upper body).toExpr = .ok x ↔ ∃ y z w, optionToExpr lower = .ok y ∧
        optionToExpr upper = .ok z ∧ (fraction f g).toExpr = .ok w ∧ x = .integral y z w name := by
  refine ⟨Option.ext fun x => ?_, fun x => h.toExpr_integral⟩
  rw [toOption_eq_some, toOption_eq_some, h.toExpr_integral, h'.toExpr_integral]

theorem toExpr_integral_braced_and_inFront :
    (integral none none (fraction (juxtaposed .groups (group (symbol "x"))
        (group (differential (some "x") false))) (symbol "a"))).toExpr.toOption =
      (integral none none (juxtaposed .differential (differential (some "x") false)
        (fraction (symbol "x") (symbol "a")))).toExpr.toOption ∧
      (integral none none (fraction (juxtaposed .groups (group (symbol "x"))
        (group (differential (some "x") false))) (symbol "a"))).toExpr =
        .ok (.integral none none (.fraction (.symbol "x") (.symbol "a")) "x") := by
  have braced : FractionBody (symbol "x") (symbol "a") "x" _ := .braced .groups
  have inFront : FractionBody (symbol "x") (symbol "a") "x" _ := .outsideInFront .differential
  have spelling := @toExpr_integral_spelling _ _ _ _ _ none none braced inFront
  refine ⟨spelling.1, (spelling.2 _).2 ⟨none, none, _, ?_, ?_, ?_, rfl⟩⟩
  · simp [optionToExpr]
  · simp [optionToExpr]
  · simp [toExpr, isDerivative, containsDifferential]

end AnswerKey.Formula

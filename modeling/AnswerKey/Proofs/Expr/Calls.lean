import AnswerKey.Answer
import AnswerKey.Proofs.Expr.Scopes
import AnswerKey.Proofs.Grammar.Reading

/-! Which names are called in an expression that was read. -/
namespace AnswerKey

namespace Expr

def calledName? : Expr → Option String
  | call name _ => some name
  | _ => none

def CallsOnly (P : String → Prop) (x : Expr) : Prop :=
  ∀ bound, ∀ m ∈ x.mentions bound, m.isCall = true → P m.name

variable {m : Mention} {bound : List String}

theorem call_of_mentions {x : Expr} (hm : m ∈ x.mentions bound) (hc : m.isCall = true) :
    x.calledName? = some m.name ∨ ∃ y ∈ x.children, ∃ inner, m ∈ y.mentions inner := by
  rcases mem_mentions.1 hm with hown | ⟨part, hp, hm⟩
  · cases x with
    | symbol n =>
      obtain rfl := List.mem_singleton.1 hown
      cases hc
    | call n args =>
      obtain rfl := List.mem_singleton.1 hown
      exact .inl rfl
    | _ => cases hown
  · exact .inr ⟨part.2, mem_children_of_scoped hp, part.1, hm⟩

theorem callsOnly_of_children {P : String → Prop} {x : Expr}
    (hn : ∀ name, x.calledName? = some name → P name) (hc : ∀ y ∈ x.children, y.CallsOnly P) :
    x.CallsOnly P := by
  intro bound m hm hcall
  rcases call_of_mentions hm hcall with hx | ⟨y, hy, inner, hm⟩
  · exact hn _ hx
  · exact hc y hy inner m hm hcall

end Expr

namespace Formula

variable {declared : List String} {f : Formula} {x : Expr} {name : String}

theorem Built.of_mem_parts {g : Formula} (h : Built declared f) (hg : g ∈ f.parts) :
    Built declared g := by
  cases h with
  | number | symbol | infinity | differential => cases hg
  | root hi hx =>
    rcases List.mem_cons.1 hg with rfl | hg
    · exact hx
    · exact hi _ (Option.mem_toList.1 hg)
  | apply ha | call _ ha => exact ha _ hg
  | powered he ha =>
    rcases List.mem_cons.1 hg with rfl | hg
    · exact he
    · exact ha _ hg
  | integral hl hu hb =>
    simp only [parts, List.mem_append, Option.mem_toList, List.mem_singleton] at hg
    rcases hg with hg | hg | rfl
    · exact hl _ hg
    · exact hu _ hg
    · exact hb
  | _ =>
    simp only [parts, List.mem_cons, List.not_mem_nil, or_false] at hg
    rcases hg with rfl | rfl | rfl <;> assumption

theorem Built.hereditary : Hereditary (Built declared) where
  one := .number "1"
  fraction := .fraction
  of_mem_parts := Built.of_mem_parts

def IsPartOf (declared : List String) (f : Formula) (y : Expr) : Prop :=
  ∃ g : Formula, g.size < f.size ∧ Built declared g ∧ g.toExpr = .ok y

/-- The expression of a built formula calls a callable name or none by itself,
and its parts are expressions of smaller formulas. -/
theorem parts_of_toExpr (hb : Built declared f) (h : f.toExpr = .ok x) :
    (∀ name, x.calledName? = some name → Grammar.callable declared name = true) ∧
      ∀ y ∈ x.children, IsPartOf declared f y := by
  refine ⟨?_, fun y hy => ?_⟩
  · cases exprStep_of_toExpr h with
    | call =>
      intro name hname
      obtain rfl := Option.some.inj hname
      cases hb with
      | call hn => exact hn
    | _ => simp [Expr.calledName?]
  · obtain ⟨g, hg, hgy⟩ := (exprStep_of_toExpr h).exists_operand hy
    exact ⟨g, size_lt_of_mem_operands hg, Built.hereditary.of_mem_operands hb hg, hgy⟩

theorem callsOnly_of_toExpr {f : Formula} {x : Expr} (hb : Built declared f)
    (h : f.toExpr = .ok x) : x.CallsOnly fun name => Grammar.callable declared name = true := by
  obtain ⟨hn, hc⟩ := parts_of_toExpr hb h
  refine Expr.callsOnly_of_children hn fun y hy => ?_
  obtain ⟨g, hs, hg, hgy⟩ := hc y hy
  exact callsOnly_of_toExpr hg hgy
termination_by f.size

theorem BuiltMember.callsOnly (hb : BuiltMember declared f) (h : f.toExpr = .ok x) :
    x.CallsOnly fun name => Grammar.callable declared name = true := by
  cases hb with
  | relation hl hr =>
    simp only [toExpr, bind_eq_ok, pure_eq_ok] at h
    obtain ⟨y, hy, z, hz, rfl⟩ := h
    refine Expr.callsOnly_of_children (by simp [Expr.calledName?]) ?_
    simp only [Expr.children, List.mem_cons, List.not_mem_nil, or_false]
    rintro w (rfl | rfl)
    · exact callsOnly_of_toExpr hl hy
    · exact callsOnly_of_toExpr hr hz
  | expression hx => exact callsOnly_of_toExpr hx h

end Formula

namespace Answer

variable {declared : List String}

theorem readMember_eq_ok {tokens : List Token} {limit : Nat} {x : Expr} :
    readMember declared tokens limit = .ok x ↔
      tokens ≠ [] ∧ ∃ f, Formula.ofTokens declared tokens limit = .ok f ∧ f.toExpr = .ok x := by
  unfold readMember
  split
  · next h => simp [h]
  · next h => simp [h, mapError_eq_ok]

variable {input : String} {members : List Member} {m : Member} {x : Expr}

theorem formula_of_readMember {tokens : List Token} {limit : Nat}
    (h : readMember declared tokens limit = .ok x) :
    ∃ f, Formula.BuiltMember declared f ∧ f.toExpr = .ok x := by
  obtain ⟨-, f, hf, hx⟩ := readMember_eq_ok.1 h
  exact ⟨f, (Formula.ofTokens_sound hf).1, hx⟩

theorem formula_of_read (h : read declared input = .ok members) (hm : m ∈ members)
    (hx : m.expr = .ok x) : ∃ f, Formula.BuiltMember declared f ∧ f.toExpr = .ok x := by
  simp only [read, bind_eq_ok] at h
  obtain ⟨tokens, -, h⟩ := h
  split at h
  · simp at h
  · simp only [bind_eq_ok, Prod.exists, pure_eq_ok] at h
    obtain ⟨inner, limit, -, rfl⟩ := h
    obtain ⟨⟨part, stop⟩, -, rfl⟩ := List.mem_map.1 hm
    exact formula_of_readMember hx

theorem callsOnly_of_read (h : read declared input = .ok members) (hm : m ∈ members)
    (hx : m.expr = .ok x) : x.CallsOnly fun name => Grammar.callable declared name = true := by
  obtain ⟨f, hf, hfx⟩ := formula_of_read h hm hx
  exact hf.callsOnly hfx

end Answer

end AnswerKey

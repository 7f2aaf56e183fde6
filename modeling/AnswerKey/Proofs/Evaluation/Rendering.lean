import AnswerKey.Proofs.Answer.Single
import AnswerKey.Proofs.Expr.Rendering

/-! The canonical text of a member decides its value: members with the same text
have the same value or fail alike, whatever the names are bound to. -/
namespace AnswerKey

open Evaluation (Options)

namespace Expr

variable {x y : Expr} {b : Binding} {options : Options}

/-- The texts of the finite numbers in two expressions tell them apart. -/
def NumbersDiffer (x y : Expr) : Prop :=
  ∀ a ∈ x.numbers ++ y.numbers, ∀ a' ∈ x.numbers ++ y.numbers,
    a.isFinite = true → a'.isFinite = true → Decimal.plain a = Decimal.plain a' → a = a'

theorem core_eq_of_pieces (hx : x.Legible) (hy : y.Legible) (hnumbers : NumbersDiffer x y)
    (h : x.pieces = y.pieces) : x.core = y.core := by
  have hsign {a : Double} (ha : (number a).Occurs x ∨ (number a).Occurs y) : a.HasPlusSign :=
    ha.elim (fun ha => (hx.of_occurs ha).head) fun ha => (hy.of_occurs ha).head
  have hmem {a : Double} (ha : (number a).Occurs x ∨ (number a).Occurs y) :
      a ∈ x.numbers ++ y.numbers :=
    List.mem_append.2 (ha.imp (fun ha => mem_collect ha (by simp [ownNumbers]))
      fun ha => mem_collect ha (by simp [ownNumbers]))
  exact hx.core_eq hy (fun a a' ha ha' htext =>
    Decimal.eq_of_plain_eq (hsign ha) (hsign ha') htext fun hf hf' =>
      hnumbers a (hmem ha) a' (hmem ha') hf hf' htext) h

theorem NumbersDiffer.right {r r' : Relation} {l l' : Expr}
    (h : NumbersDiffer (relation r l x) (relation r' l' y)) : NumbersDiffer x y := by
  have sub {a : Double} (ha : a ∈ x.numbers ++ y.numbers) :
      a ∈ (relation r l x).numbers ++ (relation r' l' y).numbers :=
    List.mem_append.2 ((List.mem_append.1 ha).imp (mem_collect_of_child (by simp [children]))
      (mem_collect_of_child (by simp [children])))
  exact fun a ha a' ha' => h a (sub ha) a' (sub ha')

theorem evaluate_eq_of_core {s t : Expr} (hx : x.target = .ok s) (hy : y.target = .ok t)
    (h : s.core = t.core) : x.evaluate b options = y.evaluate b options := by
  rw [evaluate_of_target hx, evaluate_of_target hy]
  exact check_eval_congr h

theorem evaluate_relation_congr {r : Relation} {l l' : Expr} (h : x.core = y.core) :
    (relation r l x).evaluate b options = (relation r l' y).evaluate b options := by
  cases r with
  | equal => exact evaluate_eq_of_core rfl rfl h
  | _ => rfl

theorem LegibleMember.evaluate_congr (hx : x.LegibleMember) (hy : y.LegibleMember)
    (hnumbers : NumbersDiffer x y) (h : x.render = y.render) :
    x.evaluate b options = y.evaluate b options := by
  have hpieces : x.pieces = y.pieces := by
    refine Piece.textAll_inj hx.clean hy.clean ?_
    rw [textAll_pieces, textAll_pieces, h]
  cases hx with
  | expression hx =>
    cases hy with
    | expression hy =>
      exact evaluate_eq_of_core hx.target hy.target (core_eq_of_pieces hx hy hnumbers hpieces)
    | relation => exact absurd hpieces (hx.pieces_ne_relation _ _ _)
  | relation hl hr =>
    cases hy with
    | expression hy => exact absurd hpieces.symm (hy.pieces_ne_relation _ _ _)
    | relation hl' hr' =>
      obtain ⟨rfl, -, hright⟩ := relation_inj hl hl' hpieces
      exact evaluate_relation_congr (core_eq_of_pieces hr hr' hnumbers.right hright)

end Expr

/-- The canonical text is unambiguous. Two members that were read, without a name
that the text uses for something else, have the same value or fail alike if they
have the same text. That the texts of finite numbers differ is asked of the
numbers in the two only. -/
theorem Answer.evaluate_of_render_eq {declared declared' : List String} {latex latex' : String}
    {members members' : List Member} {m m' : Member} {x y : Expr}
    (h : read declared latex = .ok members) (hm : m ∈ members) (hx : m.expr = .ok x)
    (h' : read declared' latex' = .ok members') (hm' : m' ∈ members') (hy : m'.expr = .ok y)
    (names : ∀ name ∈ x.names ++ y.names, name ∉ Expr.reserved)
    (numbers : Expr.NumbersDiffer x y) (text : x.render = y.render) (b : Binding)
    (options : Options) : x.evaluate b options = y.evaluate b options := by
  have hxl : x.LegibleMember :=
    legibleMember_of_read h hm hx fun name hname => names name (List.mem_append_left _ hname)
  have hyl : y.LegibleMember :=
    legibleMember_of_read h' hm' hy fun name hname => names name (List.mem_append_right _ hname)
  exact hxl.evaluate_congr hyl numbers text

/-- A power written on a function and a fraction have the texts of a power of the
application and of a group. -/
theorem Answer.evaluate_power_on_sine : ∃ x y,
    single? ["x"] "\\sin^2x+\\frac\x7b1\x7d\x7b2\x7d" = some x ∧
      single? ["x"] "\\sin(x)^2+(1/2)" = some y ∧ x ≠ y ∧ x.render = y.render ∧
      ∀ b options, x.evaluate b options = y.evaluate b options := by
  have hread : ((single? ["x"] "\\sin^2x+\\frac\x7b1\x7d\x7b2\x7d").any fun x =>
      (single? ["x"] "\\sin(x)^2+(1/2)").any fun y =>
        (∀ name ∈ x.names ++ y.names, name ∉ Expr.reserved) ∧
        (∀ a ∈ x.numbers ++ y.numbers, ∀ a' ∈ x.numbers ++ y.numbers,
          a.isFinite = true → a'.isFinite = true → Decimal.plain a = Decimal.plain a' → a = a') ∧
        x.children.map Expr.isAtomic ≠ y.children.map Expr.isAtomic ∧ x.render = y.render) =
      true := by decide +kernel
  obtain ⟨x, hx, hrest⟩ := (Option.any_eq_true _ _).1 hread
  obtain ⟨y, hy, htest⟩ := (Option.any_eq_true _ _).1 hrest
  obtain ⟨names, numbers, shapes, text⟩ := of_decide_eq_true htest
  obtain ⟨_, h⟩ := single?_eq_some.1 hx
  obtain ⟨_, h'⟩ := single?_eq_some.1 hy
  refine ⟨x, y, hx, hy, ?_, text, evaluate_of_render_eq h List.mem_cons_self rfl h'
    List.mem_cons_self rfl names numbers text⟩
  rintro rfl
  exact shapes rfl

end AnswerKey

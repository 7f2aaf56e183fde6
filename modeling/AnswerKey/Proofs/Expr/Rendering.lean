import AnswerKey.Proofs.Answer.FalseBox
import AnswerKey.Proofs.Expr.Decoding
import AnswerKey.Proofs.Grammar.Spelling

/-! What was read can be told from its canonical text, up to what is evaluated
alike: with none of the words that the text uses for itself among the names, the
expressions are legible. -/
namespace AnswerKey

open Formula (Built BuiltMember Spelled)

namespace Expr

def ownNames : Expr → List String
  | symbol name | call name _ => [name]
  | _ => []

def ownNumbers : Expr → List Double
  | number a => [a]
  | _ => []

def names (x : Expr) : List String := x.collect ownNames

def numbers (x : Expr) : List Double := x.collect ownNumbers

theorem legible_of_occurs {x : Expr} (h : ∀ y : Expr, y.Occurs x → y.HasLegibleHead) :
    x.Legible := by
  induction x using induct_children with
  | h x ih => exact .mk (h x (.self x)) fun y hy => ih y hy fun z hz => h z (.inside hy hz)

end Expr

namespace Formula

variable {declared : List String} {f : Formula} {x : Expr}

theorem Spelled.hereditary : Hereditary Spelled where
  one := spelled_number (by simp [IsFigures, Decimal.IsFigure])
  fraction hn hd := .mk trivial (by simp [parts, hn, hd])
  of_mem_parts := Spelled.of_mem_parts

theorem legibleHead_of_toExpr (hb : Built declared f) (hs : Spelled f) (h : f.toExpr = .ok x)
    (hx : ∀ name ∈ x.ownNames, name ∉ Expr.reserved) : x.HasLegibleHead := by
  have head := hs.head
  cases exprStep_of_toExpr h with
  | number read => exact Decimal.hasPlusSign_of_read head read
  | infinity => exact Double.hasPlusSign_infinity
  | symbol name => exact ⟨head, hx name (by simp [Expr.ownNames])⟩
  | @call name _ _ unnamed => exact ⟨head, hx name (by simp [Expr.ownNames]), unnamed⟩
  | aggregate | limit => exact head
  | integral split =>
    exact (Spelled.hereditary.splitDifferential (hs.of_mem_parts (by simp [parts])) split).2.head
  | relation => cases hb
  | _ => trivial

/-- The expression of a formula with well spelled names and numbers is legible. -/
theorem legible_of_toExpr (hb : Built declared f) (hs : Spelled f) (h : f.toExpr = .ok x)
    (hx : ∀ name ∈ x.names, name ∉ Expr.reserved) : x.Legible := by
  refine Expr.legible_of_occurs fun y hy => ?_
  have hy' : (∀ name ∈ y.ownNames, name ∉ Expr.reserved) → y.HasLegibleHead :=
    (Built.hereditary.and Spelled.hereditary).forall_occurs
      (P := fun y => (∀ name ∈ y.ownNames, name ∉ Expr.reserved) → y.HasLegibleHead)
      (fun hB h => legibleHead_of_toExpr hB.1 hB.2 h) ⟨hb, hs⟩ h hy
  exact hy' fun name hname => hx name (Expr.mem_collect hy hname)

end Formula

inductive Expr.LegibleMember : Expr → Prop
  | relation {r : Relation} {left right : Expr} (hl : left.Legible) (hr : right.Legible) :
      LegibleMember (.relation r left right)
  | expression {x : Expr} (hx : x.Legible) : LegibleMember x

theorem Formula.legibleMember_of_toExpr {declared : List String} {f : Formula} {x : Expr}
    (hb : BuiltMember declared f) (hs : Spelled f) (h : f.toExpr = .ok x)
    (hx : ∀ name ∈ x.names, name ∉ Expr.reserved) : x.LegibleMember := by
  cases hb with
  | expression hb => exact .expression (legible_of_toExpr hb hs h hx)
  | relation hl hr =>
    cases exprStep_of_toExpr h with
    | @relation _ _ _ y z left right =>
      have side {w : Expr} (hw : w ∈ [y, z]) : ∀ name ∈ w.names, name ∉ Expr.reserved :=
        fun name hname => hx name (Expr.mem_collect_of_child hw hname)
      exact .relation
        (legible_of_toExpr hl (hs.of_mem_parts (by simp [parts])) left (side (by simp)))
        (legible_of_toExpr hr (hs.of_mem_parts (by simp [parts])) right (side (by simp)))

namespace Answer

theorem legibleMember_of_read {declared : List String} {input : String} {members : List Member}
    {m : Member} {x : Expr} (h : read declared input = .ok members) (hm : m ∈ members)
    (hx : m.expr = .ok x) (names : ∀ name ∈ x.names, name ∉ Expr.reserved) : x.LegibleMember := by
  obtain ⟨ls, inner, stop, hls, -, hu, rfl⟩ := read_eq_ok.1 h
  obtain ⟨⟨part, last⟩, hpart, rfl⟩ := List.mem_map.1 hm
  obtain ⟨-, f, hf, hfx⟩ := readMember_eq_ok.1 hx
  have hsublist : part.Sublist (Lexeme.tokensFrom 0 ls) :=
    (sublist_of_mem_splitMembers hpart).trans (sublist_of_unboxed (unbox_eq_ok.1 hu))
  have hspelled : f.Spelled :=
    Formula.spelled_of_ofTokens (fun t ht => hls.lettered 0 t (hsublist.mem ht)) hf
  exact Formula.legibleMember_of_toExpr (Formula.ofTokens_sound hf).1 hspelled hfx names

end Answer

namespace Expr

open Piece (word)

/-- The sign of a relation between its sides, cut at the first character that no
expression has. -/
def signParts : Relation → List Char × Char × List Char
  | .equal => ([' '], '=', [' '])
  | .notEqual => ([' ', '!'], '=', [' '])
  | .less => ([' '], '<', [' '])
  | .lessEqual => ([' '], '<', ['=', ' '])
  | .greater => ([' '], '>', [' '])
  | .greaterEqual => ([' '], '>', ['=', ' '])

variable {r r' : Relation} {l l' x x' y : Expr}

theorem pieces_relation (r : Relation) (l x : Expr) : (relation r l x).pieces =
    (l.pieces ++ (signParts r).1.map .char) ++
      .char (signParts r).2.1 :: ((signParts r).2.2.map .char ++ x.pieces) := by
  cases r <;> simp [pieces, word, Relation.sign, signParts]

theorem signParts_mark (r : Relation) : (signParts r).2.1 ∈ Piece.separators := by
  cases r <;> decide

theorem tidy_before (hl : l.Legible) (r : Relation) :
    ∀ p ∈ l.pieces ++ (signParts r).1.map .char, p.Tidy := by
  have hbefore : ∀ c ∈ (signParts r).1, c ∉ Piece.separators := by
    cases r <;> exact Text.forall_of_all (by decide)
  rw [List.forall_mem_append]
  exact ⟨hl.tidy_pieces, List.forall_mem_map.2 fun c hc => .char (hbefore c hc)⟩

theorem not_tidy_mark (r : Relation) : ¬(Piece.char (signParts r).2.1).Tidy := by
  intro h
  cases h with
  | char h => exact h (signParts_mark r)

theorem clean_relation (hl : l.Legible) (hx : x.Legible) (r : Relation) :
    ∀ p ∈ (relation r l x).pieces, p.Clean := by
  have hmark : (signParts r).2.1 ≠ '(' ∧ (signParts r).2.1 ≠ ')' := by cases r <;> decide
  have hafter : ∀ c ∈ (signParts r).2.2, c ≠ '(' ∧ c ≠ ')' := by
    cases r <;> exact Text.forall_of_all (by decide)
  have hrest : ∀ p ∈ (signParts r).2.2.map .char ++ x.pieces, p.Clean :=
    List.forall_mem_append.2
      ⟨List.forall_mem_map.2 fun c hc => .char (hafter c hc).1 (hafter c hc).2,
        fun p hp => (hx.tidy_pieces p hp).clean⟩
  rw [pieces_relation]
  exact List.forall_mem_append.2 ⟨fun p hp => (tidy_before hl r p hp).clean,
    List.forall_mem_cons.2 ⟨.char hmark.1 hmark.2, hrest⟩⟩

theorem LegibleMember.clean (h : x.LegibleMember) : ∀ p ∈ x.pieces, p.Clean := by
  cases h with
  | relation hl hr => exact clean_relation hl hr _
  | expression hx => exact fun p hp => (hx.tidy_pieces p hp).clean

theorem append_cons_inj {α : Type} {P : α → Prop} {ps qs rest rest' : List α} {a b : α}
    (hps : ∀ p ∈ ps, P p) (hqs : ∀ q ∈ qs, P q) (ha : ¬P a) (hb : ¬P b)
    (h : ps ++ a :: rest = qs ++ b :: rest') : ps = qs ∧ a = b ∧ rest = rest' := by
  induction ps generalizing qs with
  | nil =>
    cases qs with
    | nil => exact ⟨rfl, List.cons.inj h⟩
    | cons q qs => exact absurd ((List.cons.inj h).1 ▸ hqs q List.mem_cons_self) ha
  | cons p ps ih =>
    cases qs with
    | nil => exact absurd ((List.cons.inj h).1 ▸ hps p List.mem_cons_self) hb
    | cons q qs =>
      obtain ⟨rfl, hrest⟩ := List.cons.inj h
      obtain ⟨rfl, htail⟩ := ih (List.forall_mem_cons.1 hps).2 (List.forall_mem_cons.1 hqs).2 hrest
      exact ⟨rfl, htail⟩

theorem relation_inj (hl : l.Legible) (hl' : l'.Legible)
    (h : (relation r l x).pieces = (relation r' l' x').pieces) :
    r = r' ∧ l.pieces = l'.pieces ∧ x.pieces = x'.pieces := by
  rw [pieces_relation, pieces_relation] at h
  obtain ⟨hbefore, hmark, hafter⟩ := append_cons_inj (tidy_before hl r) (tidy_before hl' r')
    (not_tidy_mark r) (not_tidy_mark r') h
  -- An equation and its negation differ before the mark, the others at or behind it.
  have hlast := congrArg List.getLast? hbefore
  obtain rfl : r = r' := by
    cases r <;> cases r' <;> simp [signParts] at hlast hmark hafter ⊢
  exact ⟨rfl, List.append_cancel_right hbefore, List.append_cancel_left hafter⟩

theorem Legible.pieces_ne_relation (hy : y.Legible) (r : Relation) (l x : Expr) :
    y.pieces ≠ (relation r l x).pieces := by
  intro h
  refine not_tidy_mark r (hy.tidy_pieces _ ?_)
  rw [h, pieces_relation]
  simp

theorem Legible.target (h : x.Legible) : x.target = .ok x := by
  cases x with
  | relation => exact h.head.elim
  | _ => rfl

end Expr

end AnswerKey

import AnswerKey.Proofs.Expr.Pieces
import AnswerKey.Proofs.Token.Words
import AnswerKey.Proofs.Value.Figures

/-! Expressions whose names and numbers are words that the canonical text does
not use for itself. -/
namespace AnswerKey

def IsNumberText (s : String) : Prop := s = "inf" ∨ Decimal.IsUnsigned s.toList

namespace Expr

def reserved : List String :=
  ["inf", "none", "binomial", "sum", "product", "integral", "limit"]

/-- What an expression has of its own, without its parts, can be told from its
text. -/
def HasLegibleHead : Expr → Prop
  | number a => a.HasPlusSign
  | symbol name => IsName name ∧ name ∉ reserved
  | call name _ => IsName name ∧ name ∉ reserved ∧ Builtin.ofName? name = none
  | aggregate _ name _ _ _ | integral _ _ _ name | limit name _ _ _ => IsName name
  | relation _ _ _ => False
  | _ => True

inductive Legible : Expr → Prop
  | mk {x : Expr} (head : x.HasLegibleHead) (parts : ∀ y ∈ x.children, y.Legible) : Legible x

theorem Legible.head {x : Expr} (h : x.Legible) : x.HasLegibleHead := by
  cases h with
  | mk head parts => exact head

theorem Legible.of_child {x y : Expr} (h : x.Legible) (hy : y ∈ x.children) : y.Legible := by
  cases h with
  | mk head parts => exact parts y hy

theorem Legible.of_occurs {x y : Expr} (h : x.Legible) (hy : y.Occurs x) : y.Legible := by
  induction hy with
  | self => exact h
  | inside part _ ih => exact ih (h.of_child part)

end Expr

theorem IsNumberText.ne_empty {s : String} (h : IsNumberText s) : s ≠ "" := by
  rintro rfl
  rcases h with h | h
  · exact absurd h (by decide)
  · exact h.nonempty rfl

theorem IsNumberText.isWordChar {s : String} (h : IsNumberText s) :
    ∀ c ∈ s.toList, isWordChar c = true := by
  rcases h with rfl | h
  · exact Text.forall_of_all (by decide)
  · exact fun c hc => isWordChar_of_isFigure (h.figure c hc)

theorem isNumberText_plain {a : Double} (h : a.HasPlusSign) : IsNumberText (Decimal.plain a) :=
  (Decimal.plain_of_hasPlusSign h).imp And.right And.right

theorem IsName.not_isNumberText {s : String} (h : IsName s) (hs : s ≠ "inf") : ¬IsNumberText s := by
  obtain ⟨c, cs, hcs, hc, -⟩ := h
  rintro (rfl | h)
  · exact hs rfl
  · rcases h.figure c (hcs ▸ List.mem_cons_self) with h | rfl
    · rw [Lexeme.isDigit_of_isAlpha hc] at h
      cases h
    · cases hc

theorem Builtin.isName_name (f : Builtin) : IsName f.name :=
  isName_of_all (by cases f <;> decide)

theorem Aggregate.isName_name (kind : Aggregate) : IsName kind.name :=
  isName_of_all (by cases kind <;> decide)

namespace Piece

/-- Characters that the text of an expression has between the items of a bracket
or the sides of a relation only, besides parentheses. -/
def separators : List Char := ['(', ')', ',', '=', '<', '>']

inductive Tidy : Piece → Prop
  | char {c : Char} (h : c ∉ separators) : Tidy (char c)
  | bracket {inside : List Piece} (h : ∀ p ∈ inside, Clean p) : Tidy (bracket inside)

theorem Tidy.clean {p : Piece} (h : p.Tidy) : p.Clean := by
  cases h with
  | char h =>
    exact .char (fun hc => h (by simp [hc, separators])) fun hc => h (by simp [hc, separators])
  | bracket h => exact .bracket h

theorem not_mem_separators {c : Char} (h : AnswerKey.isWordChar c = true) : c ∉ separators := by
  intro hc
  have all : ∀ c ∈ separators, AnswerKey.isWordChar c = false :=
    Text.forall_of_all (by decide)
  rw [all c hc] at h
  cases h

theorem tidy_word {s : String} (h : ∀ c ∈ s.toList, c ∉ separators) : ∀ p ∈ word s, p.Tidy := by
  intro p hp
  obtain ⟨c, hc, rfl⟩ := List.mem_map.1 hp
  exact .char (h c hc)

theorem tidy_word_of_isWordChar {s : String} (h : ∀ c ∈ s.toList, isWordChar c = true) :
    ∀ p ∈ word s, p.Tidy :=
  tidy_word fun c hc => not_mem_separators (h c hc)

theorem clean_joined {items : List (List Piece)} (h : ∀ item ∈ items, ∀ p ∈ item, p.Tidy) :
    ∀ p ∈ joined items, p.Clean := by
  induction items with
  | nil => exact List.forall_mem_nil _
  | cons item rest ih =>
    obtain ⟨hitem, hrest⟩ := List.forall_mem_cons.1 h
    have hitem (p : Piece) (hp : p ∈ item) : p.Clean := (hitem p hp).clean
    have hcomma : ∀ p ∈ word ", ", p.Clean := by
      intro p hp
      obtain ⟨c, hc, rfl⟩ := List.mem_map.1 hp
      have all : ∀ c ∈ ", ".toList, c ≠ '(' ∧ c ≠ ')' := Text.forall_of_all (by decide)
      exact .char (all c hc).1 (all c hc).2
    cases rest with
    | nil => exact hitem
    | cons next rest =>
      simp only [joined, List.forall_mem_append]
      exact ⟨hitem, hcomma, ih hrest⟩

end Piece

namespace Expr

open Piece (Tidy Clean word joined tidy_word tidy_word_of_isWordChar clean_joined)

theorem tidy_enclosed {x : Expr} {ps : List Piece} (h : ∀ p ∈ ps, Tidy p) :
    ∀ p ∈ enclosed x ps, Tidy p := by
  unfold enclosed
  split
  · exact h
  · simpa using .bracket fun p hp => (h p hp).clean

theorem tidy_applied {w : String} {items : List (List Piece)} (hw : IsName w)
    (h : ∀ item ∈ items, ∀ p ∈ item, Tidy p) :
    ∀ p ∈ word w ++ [.bracket (joined items)], Tidy p := by
  rw [List.forall_mem_append]
  refine ⟨tidy_word_of_isWordChar hw.isWordChar, ?_⟩
  simpa using .bracket (clean_joined h)

theorem tidy_sideItems (side : Option Side) : ∀ item ∈ sideItems side, ∀ p ∈ item, Tidy p := by
  rcases side with _ | _ | _
  · exact List.forall_mem_nil _
  · simpa [sideItems] using tidy_word (s := "+") (Text.forall_of_all (by decide))
  · simpa [sideItems] using tidy_word (s := "-") (Text.forall_of_all (by decide))

theorem tidy_two {x y : Expr} {sign : String} (hx : ∀ p ∈ x.pieces, Tidy p)
    (hs : ∀ c ∈ sign.toList, c ∉ Piece.separators) (hy : ∀ p ∈ y.pieces, Tidy p) :
    ∀ p ∈ enclosed x x.pieces ++ (word sign ++ enclosed y y.pieces), Tidy p := by
  simp only [List.forall_mem_append]
  exact ⟨tidy_enclosed hx, tidy_word hs, tidy_enclosed hy⟩

theorem tidy_piecesAll {xs : List Expr} (h : ∀ x ∈ xs, ∀ p ∈ x.pieces, Tidy p) :
    ∀ item ∈ piecesAll xs, ∀ p ∈ item, Tidy p := by
  rw [piecesAll_eq_map]
  exact List.forall_mem_map.2 h

theorem tidy_boundPieces {x? : Option Expr} (h : ∀ x ∈ x?, ∀ p ∈ x.pieces, Tidy p) :
    ∀ p ∈ boundPieces x?, Tidy p := by
  cases x? with
  | none => exact tidy_word (Text.forall_of_all (by decide))
  | some x => exact h x rfl

theorem Legible.tidy_pieces {x : Expr} (h : x.Legible) : ∀ p ∈ x.pieces, p.Tidy := by
  induction x using induct_children with
  | h x ih =>
    have part (y : Expr) (hy : y ∈ x.children) : ∀ p ∈ y.pieces, p.Tidy := ih y hy (h.of_child hy)
    have head := h.head
    cases x with
    | number a => exact tidy_word_of_isWordChar (isNumberText_plain head).isWordChar
    | symbol n => exact tidy_word_of_isWordChar head.1.isWordChar
    | binary op l r =>
      exact tidy_two (part l (by simp [children]))
        (by cases op <;> exact Text.forall_of_all (by decide)) (part r (by simp [children]))
    | power l r | fraction l r =>
      exact tidy_two (part l (by simp [children])) (Text.forall_of_all (by decide))
        (part r (by simp [children]))
    | negated y =>
      simp only [pieces, List.forall_mem_append]
      exact ⟨tidy_word (Text.forall_of_all (by decide)),
        tidy_enclosed (part y (by simp [children]))⟩
    | factorial y =>
      simp only [pieces, List.forall_mem_append]
      exact ⟨tidy_enclosed (part y (by simp [children])),
        tidy_word (Text.forall_of_all (by decide))⟩
    | group y =>
      have hy := part y (by simp [children])
      simpa [pieces] using .bracket fun p hp => (hy p hp).clean
    | binomial t b =>
      refine tidy_applied (isName_of_all (by decide)) ?_
      simpa using ⟨part t (by simp [children]), part b (by simp [children])⟩
    | apply f args => exact tidy_applied f.isName_name (tidy_piecesAll part)
    | call n args => exact tidy_applied head.1 (tidy_piecesAll part)
    | powered f e args =>
      have hargs := tidy_applied f.isName_name (tidy_piecesAll fun y hy =>
        part y (List.mem_cons_of_mem e hy))
      have he := tidy_enclosed (x := e) (part e (by simp [children]))
      simp only [pieces, List.forall_mem_append, List.forall_mem_cons] at hargs ⊢
      exact ⟨hargs.1, hargs.2.1, tidy_word (Text.forall_of_all (by decide)), he⟩
    | aggregate kind n lower upper body =>
      have hn := tidy_word_of_isWordChar (IsName.isWordChar head)
      refine tidy_applied kind.isName_name ?_
      simpa using ⟨hn, part lower (by simp [children]), part upper (by simp [children]),
        part body (by simp [children])⟩
    | integral lower upper integrand n =>
      have hn := tidy_word_of_isWordChar (IsName.isWordChar head)
      have hl : ∀ p ∈ boundPieces lower, Tidy p :=
        tidy_boundPieces fun y hy => part y (by simp [children, Option.mem_def.1 hy])
      have hu : ∀ p ∈ boundPieces upper, Tidy p :=
        tidy_boundPieces fun y hy => part y (by simp [children, Option.mem_def.1 hy])
      refine tidy_applied (isName_of_all (by decide)) ?_
      simp only [List.forall_mem_cons]
      refine ⟨part integrand (by simp [children]), hn, ?_⟩
      split
      · simpa using ⟨hl, hu⟩
      · exact List.forall_mem_nil _
    | limit n approach side body =>
      have hn := tidy_word_of_isWordChar (IsName.isWordChar head)
      refine tidy_applied (isName_of_all (by decide)) ?_
      simp only [List.forall_mem_cons]
      exact ⟨part body (by simp [children]), hn, part approach (by simp [children]),
        tidy_sideItems side⟩
    | relation => exact head.elim

end Expr

end AnswerKey

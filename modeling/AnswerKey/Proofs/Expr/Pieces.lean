import AnswerKey.Expr.Printer
import AnswerKey.Proofs.Expr.Occurrence

/-! The canonical text as pieces: characters, and what stands in parentheses. The
text tells the pieces apart. -/
namespace AnswerKey

inductive Piece where
  | char (c : Char)
  | bracket (inside : List Piece)

namespace Piece

mutual

def text : Piece → List Char
  | char c => [c]
  | bracket inside => '(' :: (textAll inside ++ [')'])

def textAll : List Piece → List Char
  | [] => []
  | p :: rest => text p ++ textAll rest

end

inductive Clean : Piece → Prop
  | char {c : Char} (hopen : c ≠ '(') (hclose : c ≠ ')') : Clean (char c)
  | bracket {inside : List Piece} (h : ∀ p ∈ inside, Clean p) : Clean (bracket inside)

theorem ne_open_of_clean {c : Char} (h : Clean (char c)) : c ≠ '(' := by
  cases h with
  | char hopen => exact hopen

theorem clean_inside {inside : List Piece} (h : Clean (bracket inside)) :
    ∀ p ∈ inside, Clean p := by
  cases h with
  | bracket h => exact h

def word (s : String) : List Piece := s.toList.map char

def joined : List (List Piece) → List Piece
  | [] => []
  | [item] => item
  | item :: next :: rest => item ++ (word ", " ++ joined (next :: rest))

@[simp] theorem textAll_append (ps qs : List Piece) :
    textAll (ps ++ qs) = textAll ps ++ textAll qs := by
  induction ps with
  | nil => rfl
  | cons p ps ih => rw [List.cons_append, textAll, textAll, ih, List.append_assoc]

@[simp] theorem textAll_word (s : String) : textAll (word s) = s.toList := by
  unfold word
  induction s.toList with
  | nil => rfl
  | cons c cs ih => rw [List.map_cons, textAll, ih]; rfl

@[simp] theorem textAll_nil : textAll [] = [] := rfl

@[simp] theorem textAll_bracket (inside rest : List Piece) :
    textAll (bracket inside :: rest) = '(' :: (textAll inside ++ (')' :: textAll rest)) := by
  rw [textAll, text, List.cons_append, List.append_assoc]
  rfl

def Stops (cs : List Char) : Prop := ∀ c ∈ cs.head?, c = ')'

theorem not_stops_text {p : Piece} (h : Clean p) (cs : List Char) : ¬Stops (text p ++ cs) := by
  intro hs
  cases h with
  | char hopen hclose => exact hclose (hs _ rfl)
  | bracket => exact absurd (hs '(' rfl) (by decide)

/-- Pieces are found again in their text. -/
theorem textAll_append_inj {ps qs : List Piece} {r r' : List Char} (hp : ∀ p ∈ ps, Clean p)
    (hq : ∀ q ∈ qs, Clean q) (hr : Stops r) (hr' : Stops r')
    (h : textAll ps ++ r = textAll qs ++ r') : ps = qs ∧ r = r' := by
  have closes (cs : List Char) : Stops (')' :: cs) := fun c hc => (Option.some.inj hc).symm
  -- A parenthesis is never a character piece, so the first pieces are of one kind.
  match ps, qs with
  | [], [] => exact ⟨rfl, h⟩
  | [], q :: qs =>
    rw [textAll, textAll, List.nil_append, List.append_assoc] at h
    exact absurd (h ▸ hr) (not_stops_text (hq q List.mem_cons_self) _)
  | p :: ps, [] =>
    rw [textAll, textAll, List.nil_append, List.append_assoc] at h
    exact absurd (h ▸ hr') (not_stops_text (hp p List.mem_cons_self) _)
  | char c :: ps, char d :: qs =>
    obtain ⟨-, hps⟩ := List.forall_mem_cons.1 hp
    obtain ⟨-, hqs⟩ := List.forall_mem_cons.1 hq
    obtain ⟨rfl, hrest⟩ := List.cons.inj h
    obtain ⟨rfl, rfl⟩ := textAll_append_inj hps hqs hr hr' hrest
    exact ⟨rfl, rfl⟩
  | char c :: ps, bracket j :: qs =>
    exact absurd (List.cons.inj h).1 (ne_open_of_clean (hp _ List.mem_cons_self))
  | bracket i :: ps, char d :: qs =>
    exact absurd (List.cons.inj h).1.symm (ne_open_of_clean (hq _ List.mem_cons_self))
  | bracket i :: ps, bracket j :: qs =>
    obtain ⟨hi, hps⟩ := List.forall_mem_cons.1 hp
    obtain ⟨hj, hqs⟩ := List.forall_mem_cons.1 hq
    simp only [textAll, text, List.cons_append, List.append_assoc, List.cons.injEq, true_and,
      List.nil_append] at h
    obtain ⟨rfl, hrest⟩ :=
      textAll_append_inj (clean_inside hi) (clean_inside hj) (closes _) (closes _) h
    obtain ⟨rfl, rfl⟩ := textAll_append_inj hps hqs hr hr' (List.cons.inj hrest).2
    exact ⟨rfl, rfl⟩

theorem textAll_inj {ps qs : List Piece} (hp : ∀ p ∈ ps, Clean p) (hq : ∀ q ∈ qs, Clean q)
    (h : textAll ps = textAll qs) : ps = qs := by
  have stops : Stops [] := by simp [Stops]
  exact (textAll_append_inj hp hq stops stops (congrArg (· ++ []) h)).1

end Piece

open Piece (word joined textAll textAll_append textAll_word)

namespace Expr

def sideItems : Option Side → List (List Piece)
  | some .above => [word "+"]
  | some .below => [word "-"]
  | none => []

def enclosed (x : Expr) (ps : List Piece) : List Piece :=
  if x.isAtomic then ps else [.bracket ps]

mutual

def pieces : Expr → List Piece
  | number x => word (Decimal.plain x)
  | symbol name => word name
  | binary op l r => enclosed l (pieces l) ++ (word op.sign ++ enclosed r (pieces r))
  | negated x => word "-" ++ enclosed x (pieces x)
  | power b e => enclosed b (pieces b) ++ (word "^" ++ enclosed e (pieces e))
  | group x => [.bracket (pieces x)]
  | fraction n d => enclosed n (pieces n) ++ (word "/" ++ enclosed d (pieces d))
  | binomial t b => word "binomial" ++ [.bracket (joined [pieces t, pieces b])]
  | apply f args => word f.name ++ [.bracket (joined (piecesAll args))]
  | call name args => word name ++ [.bracket (joined (piecesAll args))]
  | powered f e args =>
    word f.name ++ (.bracket (joined (piecesAll args)) :: (word "^" ++ enclosed e (pieces e)))
  | factorial x => enclosed x (pieces x) ++ word "!"
  | aggregate kind name lower upper body =>
    word kind.name ++ [.bracket (joined [word name, pieces lower, pieces upper, pieces body])]
  | integral lower upper integrand name =>
    word "integral" ++ [.bracket (joined (pieces integrand :: word name ::
      if lower.isSome || upper.isSome then [boundPieces lower, boundPieces upper] else []))]
  | limit name approach side body =>
    word "limit" ++
      [.bracket (joined (pieces body :: word name :: pieces approach :: sideItems side))]
  | relation r l x => pieces l ++ (word " " ++ (word r.sign ++ (word " " ++ pieces x)))

def piecesAll : List Expr → List (List Piece)
  | [] => []
  | x :: rest => pieces x :: piecesAll rest

def boundPieces : Option Expr → List Piece
  | none => word "none"
  | some x => pieces x

end

theorem piecesAll_eq_map (xs : List Expr) : piecesAll xs = xs.map pieces := by
  induction xs with
  | nil => rfl
  | cons x rest ih => rw [piecesAll, ih, List.map_cons]

theorem textAll_enclosed {x : Expr} {text : String} {ps : List Piece}
    (h : textAll ps = text.toList) :
    textAll (enclosed x ps) = (parenthesized x text).toList := by
  unfold enclosed parenthesized
  split
  · exact h
  · simp [h]

theorem textAll_piecesAll {xs : List Expr} (ih : ∀ x ∈ xs, textAll x.pieces = x.render.toList) :
    textAll (joined (piecesAll xs)) = (renderList xs).toList := by
  induction xs with
  | nil => rfl
  | cons x rest ihr =>
    obtain ⟨hx, hrest⟩ := List.forall_mem_cons.1 ih
    cases rest with
    | nil => exact hx
    | cons y rest =>
      rw [renderList, String.toList_append, String.toList_append, ← ihr hrest, ← hx]
      · simp only [piecesAll, joined, textAll_append, textAll_word, List.append_assoc]
      · simp

theorem textAll_boundPieces {x? : Option Expr} (ih : ∀ x ∈ x?, textAll x.pieces = x.render.toList) :
    textAll (boundPieces x?) = (renderBound x?).toList := by
  cases x? with
  | none => exact textAll_word _
  | some x => exact ih x rfl

/-- The pieces make up the canonical text. -/
theorem textAll_pieces (x : Expr) : textAll x.pieces = x.render.toList := by
  induction x using induct with
  | number | symbol => exact textAll_word _
  | binary _ _ _ hl hr | power _ _ hl hr | fraction _ _ hl hr =>
    simp only [pieces, render, textAll_append, textAll_word, String.toList_append,
      textAll_enclosed hl, textAll_enclosed hr, List.append_assoc]
  | negated _ hx | factorial _ hx =>
    simp only [pieces, render, textAll_append, textAll_word, String.toList_append,
      textAll_enclosed hx]
  | group x hx => simp [pieces, render, hx]
  | binomial t b ht hb => simp [pieces, render, joined, ht, hb]
  | apply f args ih | call n args ih => simp [pieces, render, textAll_piecesAll ih]
  | powered f e args he ih =>
    simp [pieces, render, textAll_piecesAll ih, textAll_enclosed he]
  | aggregate kind name lower upper body hl hu hb => simp [pieces, render, joined, hl, hu, hb]
  | integral lower upper integrand name hl hu hb =>
    have hl := textAll_boundPieces hl
    have hu := textAll_boundPieces hu
    simp only [pieces, render]
    split
    · simp [joined, hl, hu, hb]
    · simp [joined, hb]
  | limit name approach side body ha hb =>
    rcases side with _ | _ | _ <;> simp [pieces, render, sideItems, sideSuffix, joined, ha, hb]
  | relation r l x hl hx =>
    simp only [pieces, render, textAll_append, textAll_word, String.toList_append, hl, hx,
      List.append_assoc]

end Expr

end AnswerKey

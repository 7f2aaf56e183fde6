import AnswerKey.Proofs.Expr.Calls
import AnswerKey.Proofs.Grammar.Likeness
import AnswerKey.Proofs.Token.Lexemes

/-! Cutting an answer into members: where a row of tokens has no cut, what a cut
after it leaves, and how little the place of a row matters. -/
namespace AnswerKey

open Cursor (AlikeFrom)
open Lexeme (Reads row tokensFrom)

namespace Lexeme

def StopsAlike (previous previous' : Option Nat) (p q : Nat) : Prop :=
  (previous = some p ∧ previous' = some q) ∨
    ((∀ s ∈ previous, s < p) ∧ ∀ s ∈ previous', s < q)

theorem size_pos {cs : List Char} (h : cs ≠ []) : 0 < Text.size cs := by
  cases cs with
  | nil => exact absurd rfl h
  | cons c cs => exact Nat.add_pos_left c.utf8Size_pos _

theorem alikeFrom_tokensFrom {cs : List Char} {ls : List Lexeme} (h : Reads cs ls)
    (tail : List Token) {previous previous' : Option Nat} {p q : Nat}
    (hs : StopsAlike previous previous' p q) :
    AlikeFrom tail 0 previous (tokensFrom p ls) previous' (tokensFrom q ls ++ tail) := by
  induction h generalizing previous previous' p q with
  | nil => exact .nil
  | @cons l ls cs rest starts legal more ih =>
    have hsize := size_pos starts.text_ne_nil
    obtain hnone | ⟨kind, name, hone⟩ := tokens_eq_ok legal
    · have hs' : StopsAlike previous previous' (p + Text.size l.text) (q + Text.size l.text) := by
        obtain ⟨rfl, rfl⟩ | ⟨hp, hq⟩ := hs
        · refine .inr ⟨?_, ?_⟩
          · rintro s ⟨⟩
            omega
          · rintro s ⟨⟩
            omega
        · exact .inr ⟨fun s hs => Nat.lt_add_right _ (hp s hs),
            fun s hs => Nat.lt_add_right _ (hq s hs)⟩
      rw [tokensFrom_none hnone, tokensFrom_none hnone]
      exact ih hs'
    · have hrest := ih (p := p + Text.size l.text) (q := q + Text.size l.text) (.inl ⟨rfl, rfl⟩)
      rw [tokensFrom_one hone, tokensFrom_one hone]
      refine .cons rfl rfl (fun i _ => ?_) hrest
      obtain ⟨rfl, rfl⟩ | ⟨hp, hq⟩ := hs
      · simp
      · constructor
        · rintro rfl
          exact absurd (hp _ rfl) (Nat.not_lt_of_le (Nat.le_add_right p i))
        · rintro rfl
          exact absurd (hq _ rfl) (Nat.not_lt_of_le (Nat.le_add_right q i))

end Lexeme

namespace Answer

def depthAfterAll (depth : Int) (ts : List Token) : Int :=
  ts.foldl (fun d t => depthAfter d t.kind) depth

/-- No separator stands among the tokens where no bracket is open. -/
def Uncut : Int → List Token → Prop
  | _, [] => True
  | depth, t :: ts =>
    ¬(depth = 0 ∧ isSeparator t.kind = true) ∧ Uncut (depthAfter depth t.kind) ts

variable {limit : Nat} {depth : Int} {ts us rest : List Token} {s : Token}

theorem splitMembers_ne_nil (limit : Nat) (depth : Int) (ts : List Token) :
    splitMembers limit depth ts ≠ [] := by
  cases ts with
  | nil => simp [splitMembers]
  | cons t ts =>
    simp only [splitMembers]
    split
    · simp
    · split <;> simp

theorem splitMembers_cons (limit : Nat) (ts : List Token)
    (h : ¬(depth = 0 ∧ isSeparator s.kind = true)) :
    ∃ part stop others, splitMembers limit (depthAfter depth s.kind) ts = (part, stop) :: others ∧
      splitMembers limit depth (s :: ts) = (s :: part, stop) :: others := by
  cases hm : splitMembers limit (depthAfter depth s.kind) ts with
  | nil => exact absurd hm (splitMembers_ne_nil _ _ _)
  | cons first others => exact ⟨first.1, first.2, others, rfl, by simp only [splitMembers, if_neg h, hm]⟩

theorem splitMembers_of_uncut (h : Uncut depth ts) :
    splitMembers limit depth ts = [(ts, limit)] := by
  induction ts generalizing depth with
  | nil => rfl
  | cons t ts ih =>
    obtain ⟨part, stop, others, hrest, hcons⟩ := splitMembers_cons limit ts h.1
    rw [ih h.2] at hrest
    obtain ⟨⟨rfl, rfl⟩, rfl⟩ : (ts = part ∧ limit = stop) ∧ [] = others := by simpa using hrest
    exact hcons

theorem uncut_of_splitMembers {member : List Token × Nat}
    (h : splitMembers limit depth ts = [member]) : Uncut depth ts := by
  induction ts generalizing depth member with
  | nil => trivial
  | cons t ts ih =>
    by_cases hcut : depth = 0 ∧ isSeparator t.kind = true
    · simp only [splitMembers, if_pos hcut, List.cons.injEq] at h
      exact absurd h.2 (splitMembers_ne_nil _ _ _)
    · obtain ⟨part, stop, others, hrest, hcons⟩ := splitMembers_cons limit ts hcut
      rw [hcons] at h
      rw [(List.cons.inj h).2] at hrest
      exact ⟨hcut, ih hrest⟩

theorem splitMembers_of_level (h : Uncut depth ts) (hs : isSeparator s.kind = true)
    (hlevel : depthAfterAll depth ts = 0) :
    splitMembers limit depth (ts ++ s :: rest) = (ts, s.start) :: splitMembers limit 0 rest := by
  induction ts generalizing depth with
  | nil =>
    obtain rfl : depth = 0 := hlevel
    simp [splitMembers, hs]
  | cons t ts ih =>
    obtain ⟨part, stop, others, hrest, hcons⟩ :=
      splitMembers_cons limit (ts ++ s :: rest) h.1
    rw [ih h.2 hlevel] at hrest
    obtain ⟨⟨rfl, rfl⟩, rfl⟩ :
        (ts = part ∧ s.start = stop) ∧ splitMembers limit 0 rest = others := by simpa using hrest
    exact hcons

theorem splitMembers_of_not_level (limit : Nat) (s : Token) (rest : List Token)
    (h : Uncut depth ts) (hlevel : depthAfterAll depth ts ≠ 0) :
    ∃ more stop others,
      splitMembers limit depth (ts ++ s :: rest) = (ts ++ s :: more, stop) :: others := by
  induction ts generalizing depth with
  | nil =>
    have hcut : ¬(depth = 0 ∧ isSeparator s.kind = true) := fun h => hlevel h.1
    obtain ⟨part, stop, others, -, hcons⟩ := splitMembers_cons limit rest hcut
    exact ⟨part, stop, others, hcons⟩
  | cons t ts ih =>
    obtain ⟨part, stop, others, hrest, hcons⟩ :=
      splitMembers_cons limit (ts ++ s :: rest) h.1
    obtain ⟨more, stop', others', hmore⟩ := ih h.2 hlevel
    rw [hmore] at hrest
    obtain ⟨⟨rfl, rfl⟩, rfl⟩ :
        (ts ++ s :: more = part ∧ stop' = stop) ∧ others' = others := by simpa using hrest
    exact ⟨more, stop', others', hcons⟩

theorem uncut_congr (h : us.map (·.kind) = ts.map (·.kind)) :
    (Uncut depth us ↔ Uncut depth ts) ∧ depthAfterAll depth us = depthAfterAll depth ts := by
  induction ts generalizing depth us with
  | nil =>
    obtain rfl : us = [] := by simpa using h
    exact ⟨Iff.rfl, rfl⟩
  | cons t ts ih =>
    cases us with
    | nil => simp at h
    | cons u us =>
      obtain ⟨hk, hks⟩ : u.kind = t.kind ∧ us.map (·.kind) = ts.map (·.kind) := by simpa using h
      simp only [Uncut, depthAfterAll, List.foldl_cons, hk]
      exact ⟨and_congr_right fun _ => (ih hks).1, (ih hks).2⟩

/-! A member at another place, and a member that goes on after a separator. -/

variable {declared : List String} {cs : List Char} {ls : List Lexeme} {x : Expr}

theorem kinds_of_alikeFrom {n : Nat} {p q : Option Nat} (h : AlikeFrom [] n p ts q us) :
    us.map (·.kind) = ts.map (·.kind) := by
  induction h with
  | nil => rfl
  | cons kind _ _ _ ih => simp [kind, ih]

theorem moved (h : Reads cs ls) (p q : Nat) :
    AlikeFrom [] 0 none (tokensFrom p ls) none (tokensFrom q ls) := by
  simpa using Lexeme.alikeFrom_tokensFrom h [] (p := p) (q := q) (.inr ⟨by simp, by simp⟩)

theorem readMember_moved {p : Nat} (h : Reads cs ls)
    (hx : readMember declared (tokensFrom p ls) limit = .ok x) (q limit' : Nat) :
    readMember declared (tokensFrom q ls) limit' = .ok x := by
  obtain ⟨hne, f, hf, hfx⟩ := readMember_eq_ok.1 hx
  have hm := moved h p q
  refine readMember_eq_ok.2 ⟨?_, f, Formula.ofTokens_of_alike limit' hm hf, hfx⟩
  intro hnil
  have hk := kinds_of_alikeFrom hm
  rw [hnil] at hk
  exact hne (List.map_eq_nil_iff.1 hk.symm)

theorem readMember_ne_ok {p q limit' : Nat} (h : Reads cs ls)
    (hx : readMember declared (tokensFrom p ls) limit = .ok x) (hs : isSeparator s.kind = true)
    (y : Expr) : readMember declared (tokensFrom q ls ++ s :: rest) limit' ≠ .ok y := by
  intro hy
  obtain ⟨-, f, hf, -⟩ := readMember_eq_ok.1 hx
  obtain ⟨-, g, hg, -⟩ := readMember_eq_ok.1 hy
  have halike : AlikeFrom (s :: rest) 0 none (tokensFrom p ls) none (tokensFrom q ls ++ s :: rest) :=
    Lexeme.alikeFrom_tokensFrom h (s :: rest) (.inr ⟨by simp, by simp⟩)
  refine Formula.ofTokens_ne_ok_of_alike limit' ?_ (by simp) halike hf g hg
  rintro t ⟨⟩
  exact hs

end Answer

end AnswerKey

import AnswerKey.Proofs.Grammar.Likeness
import AnswerKey.Proofs.Grammar.Precedence

/-! Formulas as parts of a larger text. The tokens of a formula are read in the
same way when other tokens stand before them, and when a tail stands behind them
that leaves the formula alone. -/
namespace AnswerKey.Grammar

open Cursor (Alike AlikeFrom)
open Formula (ofTokens)
open Rules (full)

variable {declared : List String} {ts tail : List Token} {t : Token} {p q : Option Nat}
  {limit limit' : Nat} {x : Formula} {mode : Mode}

/-! What starts with a token does not depend on the token before it. -/

theorem symbolName_previousStop (t : Token) (ts : List Token) (p q : Option Nat) (limit : Nat) :
    symbolName ⟨t :: ts, p, limit⟩ = symbolName ⟨t :: ts, q, limit⟩ := rfl

theorem atom_previousStop (g : Rules) (mode : Mode) (t : Token) (ts : List Token)
    (p q : Option Nat) (limit : Nat) :
    atom g mode ⟨t :: ts, p, limit⟩ = atom g mode ⟨t :: ts, q, limit⟩ := by
  obtain ⟨kind, text, start, stop⟩ := t
  cases kind with
  | opening delimiter => cases delimiter <;> rfl
  | _ => rfl

theorem signedTerm_previousStop (g : Rules) (mode : Mode) (t : Token) (ts : List Token)
    (p q : Option Nat) (limit : Nat) :
    signedTerm g mode ⟨t :: ts, p, limit⟩ = signedTerm g mode ⟨t :: ts, q, limit⟩ := by
  have term_eq : term g mode ⟨t :: ts, p, limit⟩ = term g mode ⟨t :: ts, q, limit⟩ := by
    unfold term factor
    rw [atom_previousStop g mode t ts p q]
  obtain ⟨kind, text, start, stop⟩ := t
  cases kind with
  | plus | minus => rfl
  | _ => exact term_eq

theorem sum_previousStop (declared : List String) (mode : Mode) (t : Token) (ts : List Token)
    (p q : Option Nat) (limit : Nat) :
    (full declared).sum mode ⟨t :: ts, p, limit⟩ =
      (full declared).sum mode ⟨t :: ts, q, limit⟩ := by
  rw [Rules.sum_full]
  unfold Grammar.sum
  rw [Rules.signedTerm_full, signedTerm_previousStop _ mode t ts p q]

/-! The tokens of a formula alone. -/

theorem cons_of_kind {c : Cursor} (h : c.kind ≠ none) : ∃ t ts, c.tokens = t :: ts := by
  obtain ⟨k, hk⟩ := Option.ne_none_iff_exists'.1 h
  obtain ⟨t, ts, ht, -⟩ := Cursor.kind_eq_some.1 hk
  exact ⟨t, ts, ht⟩

theorem sum_of_ofTokens (h : ofTokens declared ts limit = .ok x) (hx : x.isRelation = false)
    (p : Option Nat) :
    ∃ last, (full declared).sum .plain ⟨ts, p, limit⟩ = .ok (x, last) ∧ last.kind = none := by
  obtain ⟨last, hm, hl⟩ := Formula.ofTokens_eq_ok_full.1 h
  cases member_eq_ok.1 hm with
  | relation => cases hx
  | expression only =>
    obtain ⟨t, rest, ht⟩ := cons_of_kind ((starts_full declared).sum only).kind_ne_none
    obtain rfl : ts = t :: rest := ht
    exact ⟨last, (sum_previousStop declared .plain t rest p none limit).trans only,
      by simp [Cursor.kind, Cursor.kindAt, hl]⟩

theorem isSum_of_termSign {k : Option Token.Kind} {op : Operation} (h : termSign? k = some op)
    (l r : Formula) : (Formula.binary op l r).isSum = true := by
  obtain ⟨-, rfl⟩ | ⟨-, rfl⟩ := termSign_eq_some.1 h <;> rfl

theorem isSum_of_sumTail {depth : Nat} {left : Formula} {c c' : Cursor} (hl : left.isSum = true)
    (h : (rules declared depth).sumTail mode left c = .ok (x, c')) : x.isSum = true := by
  induction depth generalizing left c with
  | zero => cases h
  | succ depth ih =>
    cases sumTail_eq_ok.1 h with
    | side | done => exact hl
    | more sign _ _ more => exact ih (isSum_of_termSign sign _ _) more

theorem sumTail_of_not_sum {left : Formula} {c c' : Cursor} (hx : x.isSum = false)
    (h : (full declared).sumTail mode left c = .ok (x, c')) : left = x ∧ c = c' := by
  rw [Rules.sumTail_full] at h
  cases sumTail_eq_ok.1 h with
  | side | done => exact ⟨rfl, rfl⟩
  | @more _ _ _ middle _ sign _ _ more =>
    have : x.isSum = true :=
      @isSum_of_sumTail _ _ _ (sufficientDepth middle) _ _ _ (isSum_of_termSign sign _ _) more
    simp [hx] at this

theorem signedTerm_of_ofTokens (h : ofTokens declared ts limit = .ok x)
    (hx : x.isRelation = false) (hsum : x.isSum = false) (p : Option Nat) :
    ∃ last, (full declared).signedTerm .plain ⟨ts, p, limit⟩ = .ok (x, last) ∧
      last.kind = none := by
  obtain ⟨last, hs, hl⟩ := sum_of_ofTokens h hx p
  rw [Rules.sum_full] at hs
  obtain ⟨left, after, hterm, htail⟩ := sum_eq_ok.1 hs
  obtain ⟨rfl, rfl⟩ := sumTail_of_not_sum hsum htail
  exact ⟨after, hterm, hl⟩

def WritesName (ts : List Token) (name : String) : Prop :=
  ∃ last, symbolName (Cursor.start ts 0) = .ok (name, last) ∧ last.tokens = []

/-! The tokens of a formula before a tail. -/

section Tail

variable (trailing : ∀ t ∈ tail.head?, t.kind.isTrailing = true)

include trailing

theorem likeness_append (free : LeavesCaret declared tail (.start ts limit)) (p : Option Nat)
    (limit' : Nat) :
    (likeness declared tail trailing).rel ⟨ts, p, limit⟩ ⟨ts ++ tail, p, limit'⟩ :=
  ⟨(AlikeFrom.append tail ts p).mono (Nat.zero_le 1),
    fun caret argument => free caret (argument.previousStop none)⟩

theorem sum_append (h : ofTokens declared ts limit = .ok x) (hx : x.isRelation = false)
    (hm : Mode.plain.Fits mode) (ends : SumEnds tail mode) (closes : Closes tail x)
    (free : LeavesCaret declared tail (.start ts limit)) (p : Option Nat) (limit' : Nat) :
    ∃ last, (full declared).sum mode ⟨ts ++ tail, p, limit'⟩ = .ok (x, last) ∧
      last.tokens = tail := by
  obtain ⟨last, hs, hl⟩ := sum_of_ofTokens h hx p
  obtain ⟨last', hs', hr⟩ := ((follow_full (likeness declared tail trailing)).sum hm rfl
    (likeness_append trailing free p limit')).last hs fun _ => ⟨ends, closes⟩
  exact ⟨last', hs', (likeness declared tail trailing).ended hr hl⟩

theorem signedTerm_append (h : ofTokens declared ts limit = .ok x) (hx : x.isRelation = false)
    (hsum : x.isSum = false) (hm : Mode.plain.Fits mode) (ends : TermEnds tail mode)
    (closes : Closes tail x)
    (free : LeavesCaret declared tail (.start ts limit)) (p : Option Nat) (limit' : Nat) :
    ∃ last, (full declared).signedTerm mode ⟨ts ++ tail, p, limit'⟩ = .ok (x, last) ∧
      last.tokens = tail := by
  obtain ⟨last, hs, hl⟩ := signedTerm_of_ofTokens h hx hsum p
  obtain ⟨last', hs', hr⟩ := ((follow_full (likeness declared tail trailing)).signedTerm hm nofun
    (likeness_append trailing free p limit')).last hs fun _ => ⟨ends, closes⟩
  exact ⟨last', hs', (likeness declared tail trailing).ended hr hl⟩

theorem symbolName_append {name : String} (uncaret : ∀ t ∈ tail.head?, t.kind ≠ .caret)
    (h : WritesName ts name) (p : Option Nat) (limit' : Nat) :
    ∃ last, symbolName ⟨ts ++ tail, p, limit'⟩ = .ok (name, last) ∧ last.tokens = tail := by
  obtain ⟨last, hn, hl⟩ := h
  have here : (Cursor.start ts 0).kind ≠ none := by simp [kind_of_symbolName hn]
  obtain ⟨t, rest, ht⟩ := cons_of_kind here
  obtain rfl : ts = t :: rest := ht
  let P := likeness [] tail trailing
  obtain ⟨last', hn', hr⟩ := P.symbolName (likeness_append trailing (.of_other uncaret) p limit')
    ((symbolName_previousStop t rest p none 0).trans hn)
  exact ⟨last', hn', P.ended hr (by simp [Cursor.kind, Cursor.kindAt, hl])⟩

end Tail

theorem ofTokens_of_atom {last : Cursor}
    (h : atom (full declared) .plain (Cursor.start ts limit) = .ok (x, last))
    (hl : last.tokens = []) : ofTokens declared ts limit = .ok x := by
  have hend : last.kind = none := by simp [Cursor.kind, Cursor.kindAt, hl]
  exact Formula.ofTokens_eq_ok_full.2
    ⟨last, member_eq_ok.2 (.expression (sum_of_atom h (.inl hend)) (by simp [hend])), hl⟩

end AnswerKey.Grammar

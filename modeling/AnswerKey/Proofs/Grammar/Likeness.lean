import AnswerKey.Answer
import AnswerKey.Proofs.Grammar.Following

/-! Cursors at which the same is read: their tokens agree in kind and text and
touch their neighbours alike, and the second text may go on with further tokens. -/
namespace AnswerKey

def StartsApart (tail : List Token) : Prop := ∀ t ∈ tail.head?, Answer.isSeparator t.kind = true

namespace Cursor

/-- The tokens of `us` are like those of `ts` and then go on with `tail`. The
options are the ends of the tokens before them, which the first tokens touch
alike from their `n`-th character on. -/
inductive AlikeFrom (tail : List Token) :
    Nat → Option Nat → List Token → Option Nat → List Token → Prop
  | nil {n : Nat} {p q : Option Nat} : AlikeFrom tail n p [] q tail
  | cons {n : Nat} {p q : Option Nat} {t u : Token} {ts us : List Token} (kind : u.kind = t.kind)
      (text : u.text = t.text)
      (touch : ∀ i, n ≤ i → (p = some (t.start + i) ↔ q = some (u.start + i)))
      (rest : AlikeFrom tail 0 (some t.stop) ts (some u.stop) us) :
      AlikeFrom tail n p (t :: ts) q (u :: us)

theorem AlikeFrom.mono {tail ts us : List Token} {n m : Nat} {p q : Option Nat}
    (h : AlikeFrom tail n p ts q us) (hnm : n ≤ m) : AlikeFrom tail m p ts q us := by
  cases h with
  | nil => exact .nil
  | cons kind text touch rest =>
    exact .cons kind text (fun i hi => touch i (Nat.le_trans hnm hi)) rest

theorem AlikeFrom.symm {ts us : List Token} {n : Nat} {p q : Option Nat}
    (h : AlikeFrom [] n p ts q us) : AlikeFrom [] n q us p ts := by
  induction h with
  | nil => exact .nil
  | cons kind text touch _ ih =>
    exact .cons kind.symm text.symm (fun i hi => (touch i hi).symm) ih

theorem AlikeFrom.append (tail ts : List Token) (p : Option Nat) :
    AlikeFrom tail 0 p ts p (ts ++ tail) := by
  induction ts generalizing p with
  | nil => exact .nil
  | cons t ts ih => exact .cons rfl rfl (fun _ _ => .rfl) (ih (some t.stop))

def Alike (tail : List Token) (n : Nat) (c d : Cursor) : Prop :=
  AlikeFrom tail n c.previousStop c.tokens d.previousStop d.tokens

namespace Alike

variable {tail : List Token} {n : Nat} {c d c' : Cursor} {k : Token.Kind}

theorem tokens_eq_tail (h : Alike tail n c d) (hc : c.kind = none) : d.tokens = tail := by
  have hc : c.tokens = [] := by simpa [Cursor.kind, kindAt] using hc
  rw [Alike, hc] at h
  cases h with
  | nil => rfl

theorem tokens (h : Alike tail n c d) (here : c.kind = some k) :
    ∃ t ts u us, c.tokens = t :: ts ∧ d.tokens = u :: us ∧ t.kind = k ∧ u.kind = k ∧
      u.text = t.text ∧
      (∀ i, n ≤ i → (c.previousStop = some (t.start + i) ↔ d.previousStop = some (u.start + i))) ∧
      AlikeFrom tail 0 (some t.stop) ts (some u.stop) us := by
  obtain ⟨t, ts, ht, rfl⟩ := kind_eq_some.1 here
  rw [Alike, ht] at h
  generalize hu : d.tokens = us at h
  cases h with
  | cons kind text touch rest => exact ⟨_, _, _, _, ht, rfl, rfl, kind, text, touch, rest⟩

theorem kind (h : Alike tail n c d) (here : c.kind = some k) : d.kind = some k := by
  obtain ⟨_, _, u, us, -, hu, -, hk, -⟩ := h.tokens here
  exact kind_eq_some.2 ⟨u, us, hu, hk⟩

theorem text (h : Alike tail n c d) (here : c.kind = some k) : d.text = c.text := by
  obtain ⟨_, _, _, _, ht, hu, -, -, htext, -⟩ := h.tokens here
  simp [Cursor.text, ht, hu, htext]

theorem next (h : Alike tail n c d) (here : c.kind = some k) : Alike tail 0 c.next d.next := by
  obtain ⟨_, _, _, _, ht, hu, -, -, -, -, rest⟩ := h.tokens here
  simpa [Alike, Cursor.next, ht, hu] using rest

theorem touchesPrevious (h : Alike tail 0 c d) (here : c.kind ≠ none) :
    d.touchesPrevious = c.touchesPrevious := by
  obtain ⟨k, hk⟩ := Option.ne_none_iff_exists'.1 here
  obtain ⟨t, ts, u, us, ht, hu, -, -, -, touch, -⟩ := h.tokens hk
  have touches_iff {c : Cursor} {v : Token} {vs : List Token} (hv : c.tokens = v :: vs) :
      c.touchesPrevious = true ↔ c.previousStop = some v.start := by
    unfold Cursor.touchesPrevious
    rw [hv]
    cases c.previousStop with
    | none => simp
    | some s => simpa using eq_comm
  rw [Bool.eq_iff_iff, touches_iff ht, touches_iff hu]
  exact (touch 0 (Nat.le_refl 0)).symm

theorem takeDigit {digit : String} (h : Alike tail 1 c d)
    (taken : c.takeDigit? = some (digit, c')) :
    ∃ d', d.takeDigit? = some (digit, d') ∧ Alike tail 0 c' d' := by
  have number := kind_of_takeDigit taken
  obtain ⟨t, ts, u, us, ht, hu, hkt, hku, htext, touch, rest⟩ := h.tokens number
  cases takeDigit_eq_some.1 taken with
  | last here _ text isDigit =>
    obtain ⟨rfl, rfl⟩ := List.cons.inj (ht.symm.trans here)
    exact ⟨_, takeDigit_eq_some.2 (.last hu hku (htext ▸ text) isDigit), h.next number⟩
  | more here _ text isDigit left =>
    obtain ⟨rfl, rfl⟩ := List.cons.inj (ht.symm.trans here)
    refine ⟨_, takeDigit_eq_some.2 (.more hu hku (htext ▸ text) isDigit left), ?_⟩
    refine .cons (hku.trans hkt.symm) rfl (fun i _ => ?_) rest
    simpa [Nat.add_assoc, Nat.add_comm i 1] using touch (1 + i) (Nat.le_add_right 1 i)

end Alike

end Cursor

namespace Grammar

open Cursor (Alike)

/-- No argument without brackets at the end of the text has a caret in the tail
behind it, which it would take for its own. -/
def LeavesCaret (declared : List String) (tail : List Token) (c : Cursor) : Prop :=
  (Cursor.start tail 0).kind = some .caret → ¬HasArgument declared (TakesAll declared) c

namespace LeavesCaret

variable {declared : List String} {tail : List Token} {c c' : Cursor}

theorem of_other (h : ∀ t ∈ tail.head?, t.kind ≠ .caret) : LeavesCaret declared tail c := by
  intro caret
  obtain ⟨t, rest, rfl, hk⟩ := Cursor.kind_eq_some.1 caret
  exact absurd hk (h t rfl)

theorem next (h : LeavesCaret declared tail c) : LeavesCaret declared tail c.next :=
  fun caret argument => h caret (.later argument)

theorem takeDigit {digit : String} (h : LeavesCaret declared tail c)
    (taken : c.takeDigit? = some (digit, c')) : LeavesCaret declared tail c' :=
  fun caret argument => h caret (argument.of_takeDigit taken)

end LeavesCaret

/-- Like texts read alike before tokens that may stand behind a formula. -/
def resemblance (declared : List String) (tail : List Token)
    (ending : ∀ t ∈ tail.head?, t.kind.isEnding = true) : Pairing declared where
  rel c d := Alike tail 1 c d ∧ LeavesCaret declared tail c
  starts _ _ := True
  inside _ _ := True
  tail := tail
  ending := ending
  ended h hc := h.1.tokens_eq_tail hc
  kind h here := h.1.kind here
  text h here := h.1.text here
  next h here _ := ⟨⟨(h.1.next here).mono (Nat.zero_le 1), h.2.next⟩, (h.1.next here).touchesPrevious⟩
  word _ _ _ _ := trivial
  free h here argument all caret := h.2 caret (.here here argument all)
  sign _ _ _ := trivial
  factor _ := trivial
  flush _ _ _ _ _ := trivial
  enclosed _ _ _ closed hm :=
    ⟨⟨(hm.1.next closed).mono (Nat.zero_le 1), hm.2.next⟩, (hm.1.next closed).touchesPrevious⟩
  digit h taken := by
    obtain ⟨d', hd, hr⟩ := h.1.takeDigit taken
    exact ⟨d', hd, ⟨hr.mono (Nat.zero_le 1), h.2.takeDigit taken⟩, hr.touchesPrevious⟩
  mark h here _ := .same ⟨(h.1.next here).mono (Nat.zero_le 1), h.2.next⟩
  below h _ here mark :=
    have behind := (h.1.next here).next mark
    .same ⟨⟨behind.mono (Nat.zero_le 1), h.2.next.next⟩, fun _ => behind.touchesPrevious⟩
  fork h here _ := .first (.same ⟨(h.1.next here).mono (Nat.zero_le 1), h.2.next⟩)

def likeness (declared : List String) (tail : List Token)
    (trailing : ∀ t ∈ tail.head?, t.kind.isTrailing = true) : Pairing declared :=
  resemblance declared tail fun t ht => Token.Kind.isEnding_of_isTrailing (trailing t ht)

end Grammar

namespace Formula

open Cursor (AlikeFrom)
open Grammar (Rules likeness)

variable {declared : List String} {tail ts us : List Token} {limit : Nat} {x : Formula}

theorem member_of_ofTokens (limit' : Nat) (ht : StartsApart tail)
    (h : AlikeFrom tail 0 none ts none us) (hx : ofTokens declared ts limit = .ok x) :
    ∃ last, Grammar.member (Rules.full declared) (Cursor.start us limit') = .ok (x, last) ∧
      last.tokens = tail := by
  have trailing : ∀ t ∈ tail.head?, t.kind.isTrailing = true := by
    intro t htail
    have := ht t htail
    cases hk : t.kind <;> simp_all [Answer.isSeparator, Token.Kind.isTrailing]
  have apart {k : Token.Kind} (hk : Answer.isSeparator k = false) :
      (Cursor.start tail 0).kind ≠ some k := by
    intro here
    obtain ⟨t, rest, htail, rfl⟩ := Cursor.kind_eq_some.1 here
    have := ht t (by simpa [Cursor.start] using congrArg List.head? htail)
    simp [hk] at this
  have unsigned : Grammar.isSign (Cursor.start tail 0).kind = false := by
    cases hk : (Cursor.start tail 0).kind with
    | none => rfl
    | some k =>
      cases k with
      | plus | minus => exact absurd hk (apart rfl)
      | _ => rfl
  exact (likeness declared tail trailing).member_of_ofTokens
    (fun y => ⟨⟨⟨⟨fun h => absurd h (apart rfl), fun h => absurd h (apart rfl)⟩,
      fun h => absurd h (apart rfl)⟩, fun h => absurd (unsigned.symm.trans h) Bool.false_ne_true⟩,
      fun _ _ _ => apart rfl⟩)
    ⟨h.mono (Nat.zero_le 1), fun caret => absurd caret (apart rfl)⟩ hx

theorem ofTokens_of_alike (limit' : Nat) (h : AlikeFrom [] 0 none ts none us)
    (hx : ofTokens declared ts limit = .ok x) : ofTokens declared us limit' = .ok x := by
  obtain ⟨last, hm, hl⟩ := member_of_ofTokens limit' (by simp [StartsApart]) h hx
  exact ofTokens_eq_ok_full.2 ⟨last, hm, hl⟩

theorem ofTokens_ne_ok_of_alike (limit' : Nat) (ht : StartsApart tail) (hne : tail ≠ [])
    (h : AlikeFrom tail 0 none ts none us) (hx : ofTokens declared ts limit = .ok x)
    (y : Formula) : ofTokens declared us limit' ≠ .ok y := by
  intro hy
  obtain ⟨last, hm, hl⟩ := member_of_ofTokens limit' ht h hx
  obtain ⟨last', hm', hl'⟩ := ofTokens_eq_ok_full.1 hy
  obtain ⟨rfl, rfl⟩ : x = y ∧ last = last' := by simpa [hm] using hm'
  exact hne (hl ▸ hl')

end Formula

end AnswerKey

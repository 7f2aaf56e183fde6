import AnswerKey.Proofs.Answer.Cutting

/-! Curly braces in the tokens of an answer: what is read as an expression has
them in pairs, so that a box around it is taken off again. -/
namespace AnswerKey

namespace Answer

/-- The count of open braces after some tokens, if none is closed before it is
opened. -/
@[grind =]
def bracesAfter : Nat → List Token → Option Nat
  | depth, [] => some depth
  | depth, t :: ts =>
    match t.kind, depth with
    | .opening .curly, _ => bracesAfter (depth + 1) ts
    | .closing .curly, 0 => none
    | .closing .curly, depth + 1 => bracesAfter depth ts
    | _, _ => bracesAfter depth ts

def Paired (ts : List Token) : Prop := ∀ depth, bracesAfter depth ts = some depth

variable {depth : Nat} {t : Token} {ts us rest : List Token}

theorem bracesAfter_opening (h : t.kind = .opening .curly) :
    bracesAfter depth (t :: ts) = bracesAfter (depth + 1) ts := by
  simp [bracesAfter, h]

theorem bracesAfter_closing (h : t.kind = .closing .curly) :
    bracesAfter (depth + 1) (t :: ts) = bracesAfter depth ts := by
  simp [bracesAfter, h]

theorem bracesAfter_other (ho : t.kind ≠ .opening .curly) (hc : t.kind ≠ .closing .curly) :
    bracesAfter depth (t :: ts) = bracesAfter depth ts := by
  rw [bracesAfter.eq_def]
  simp only
  split
  · next hk => exact absurd hk ho
  · next hk => exact absurd hk hc
  · next hk => exact absurd hk hc
  · rfl

theorem splitAtClose_other (ho : t.kind ≠ .opening .curly) (hc : t.kind ≠ .closing .curly) :
    splitAtClose depth (t :: ts) =
      (splitAtClose depth ts).map fun (before, close, after) => (t :: before, close, after) := by
  rw [splitAtClose.eq_def]
  simp only
  split
  · next hk => exact absurd hk ho
  · next hk => exact absurd hk hc
  · next hk => exact absurd hk hc
  · rfl

theorem bracesAfter_plain (h : t.kind.isPlain = true) :
    bracesAfter depth (t :: ts) = bracesAfter depth ts := by
  refine bracesAfter_other ?_ ?_
  · intro hk
    simp [hk, Token.Kind.isPlain] at h
  · intro hk
    simp [hk, Token.Kind.isPlain] at h

theorem bracesAfter_congr (h : us.map (·.kind) = ts.map (·.kind)) :
    bracesAfter depth us = bracesAfter depth ts := by
  induction ts generalizing depth us with
  | nil =>
    obtain rfl : us = [] := by simpa using h
    rfl
  | cons t ts ih =>
    cases us with
    | nil => simp at h
    | cons u us =>
      obtain ⟨hk, hks⟩ : u.kind = t.kind ∧ us.map (·.kind) = ts.map (·.kind) := by simpa using h
      have ih (d : Nat) : bracesAfter d us = bracesAfter d ts := ih hks
      simp only [bracesAfter, hk, ih]

theorem bracesAfter_append {depth' : Nat} (h : bracesAfter depth ts = some depth') :
    bracesAfter depth (ts ++ rest) = bracesAfter depth' rest := by
  induction ts generalizing depth with
  | nil =>
    obtain rfl : depth = depth' := by simpa [bracesAfter] using h
    rfl
  | cons t ts ih =>
    simp only [List.cons_append, bracesAfter] at h ⊢
    split at h
    · exact ih h
    · cases h
    · exact ih h
    · exact ih h

theorem Paired.append (h : Paired ts) (h' : Paired rest) : Paired (ts ++ rest) :=
  fun depth => (bracesAfter_append (h depth)).trans (h' depth)

theorem Paired.plain (h : t.kind.isPlain = true) (h' : Paired ts) : Paired (t :: ts) :=
  fun depth => (bracesAfter_plain h).trans (h' depth)

theorem Paired.braced {o c : Token} (ho : o.kind = .opening .curly) (h : Paired ts)
    (hc : c.kind = .closing .curly) (h' : Paired rest) : Paired (o :: (ts ++ c :: rest)) := by
  intro depth
  rw [bracesAfter_opening ho, bracesAfter_append (h (depth + 1)), bracesAfter_closing hc, h']

theorem splitAtClose_append {depth' : Nat} (h : bracesAfter depth ts = some depth') :
    splitAtClose depth (ts ++ rest) =
      (splitAtClose depth' rest).map fun (before, close, after) => (ts ++ before, close, after) := by
  induction ts generalizing depth with
  | nil =>
    obtain rfl : depth = depth' := by simpa [bracesAfter] using h
    simp
  | cons t ts ih =>
    by_cases ho : t.kind = .opening .curly
    · rw [bracesAfter_opening ho] at h
      simp [splitAtClose, ho, ih h, Function.comp_def]
    by_cases hc : t.kind = .closing .curly
    · cases depth with
      | zero => simp [bracesAfter, hc] at h
      | succ depth =>
        rw [bracesAfter_closing hc] at h
        simp [splitAtClose, hc, ih h, Function.comp_def]
    rw [bracesAfter_other ho hc] at h
    rw [List.cons_append, splitAtClose_other ho hc, ih h, Option.map_map]
    rfl

theorem splitAtClose_of_braces (rest : List Token) (h : bracesAfter 0 ts = some 0)
    (ht : t.kind = .closing .curly) :
    splitAtClose 0 (ts ++ t :: rest) = some (ts, t, rest) := by
  rw [splitAtClose_append h]
  simp [splitAtClose, ht]

end Answer

theorem Cursor.kinds_of_takeDigit {c c' : Cursor} {digit : String}
    (h : c.takeDigit? = some (digit, c')) :
    c' = c.next ∨ c'.tokens.map (·.kind) = c.tokens.map (·.kind) := by
  obtain ⟨t, rest, ht, hk⟩ := kind_eq_some.1 (kind_of_takeDigit h)
  simp only [takeDigit?, ht, hk, if_true] at h
  split at h
  · cases h
  · split at h
    · split at h
      · left
        simpa [eq_comm] using (Prod.mk.inj (Option.some.inj h)).2
      · right
        rw [← (Prod.mk.inj (Option.some.inj h)).2]
        simp [ht, hk]
    · cases h

theorem Cursor.Passes.paired {c c' : Cursor} (h : c.Passes c') :
    ∃ ts, Answer.Paired ts ∧ c.tokens.map (·.kind) = (ts ++ c'.tokens).map (·.kind) := by
  have plain {c m : Cursor} {k : Token.Kind} (here : c.kind = some k) (hk : k.isPlain = true)
      (h : ∃ ts, Answer.Paired ts ∧ c.next.tokens.map (·.kind) = (ts ++ m.tokens).map (·.kind)) :
      ∃ ts, Answer.Paired ts ∧ c.tokens.map (·.kind) = (ts ++ m.tokens).map (·.kind) := by
    obtain ⟨t, rest, ht, rfl⟩ := kind_eq_some.1 here
    obtain ⟨ts, paired, kinds⟩ := h
    rw [tokens_next_of_cons ht] at kinds
    exact ⟨t :: ts, paired.plain hk, by simp [ht, kinds]⟩
  induction h with
  | refl => exact ⟨[], fun _ => rfl, rfl⟩
  | step here hk _ ih => exact plain here hk ih
  | digit taken _ ih =>
    obtain rfl | same := kinds_of_takeDigit taken
    · exact plain (kind_of_takeDigit taken) rfl ih
    · rwa [← same]
  | @braced c middle c' opened _ closed _ inside ih =>
    obtain ⟨o, rest, ho, hk⟩ := kind_eq_some.1 opened
    obtain ⟨e, rest', he, hk'⟩ := kind_eq_some.1 closed
    obtain ⟨ts, paired, kinds⟩ := inside
    obtain ⟨ts', paired', kinds'⟩ := ih
    rw [tokens_next_of_cons ho, he] at kinds
    rw [tokens_next_of_cons he] at kinds'
    exact ⟨o :: (ts ++ e :: ts'), .braced hk paired hk' paired', by simp [ho, kinds, kinds']⟩

theorem Cursor.Passes.bracesAfter {c c' : Cursor} (h : c.Passes c') (depth : Nat) :
    Answer.bracesAfter depth c.tokens = Answer.bracesAfter depth c'.tokens := by
  obtain ⟨ts, paired, kinds⟩ := h.paired
  rw [Answer.bracesAfter_congr kinds, Answer.bracesAfter_append (paired depth)]

namespace Answer

variable {declared : List String} {limit : Nat} {ts : List Token} {x : Expr}

theorem paired_of_readMember (h : readMember declared ts limit = .ok x) : Paired ts := by
  obtain ⟨-, f, hf, -⟩ := readMember_eq_ok.1 h
  obtain ⟨-, last, hpass, hlast⟩ := Formula.ofTokens_sound hf
  intro depth
  have hbraces := hpass.bracesAfter depth
  rw [hlast] at hbraces
  exact hbraces

theorem unbox_of_boxed (limit : Nat) {first brace close : Token} (hfirst : first.kind = .boxed)
    (hbrace : brace.kind = .opening .curly) (hclose : close.kind = .closing .curly)
    (hbraces : bracesAfter 0 ts = some 0) (hne : ts ≠ []) :
    unbox (first :: brace :: (ts ++ [close])) limit = .ok (ts, close.start) := by
  have hsplit := splitAtClose_of_braces [] hbraces hclose
  cases ts with
  | nil => exact absurd rfl hne
  | cons t ts =>
    rw [List.cons_append] at hsplit
    simp [unbox, hfirst, hbrace, hsplit]

theorem unbox_of_unboxed (h : ∀ t ∈ ts.head?, t.kind ≠ .boxed) :
    unbox ts limit = .ok (ts, limit) := by
  cases ts with
  | nil => rfl
  | cons t ts => simp [unbox, h t rfl]

theorem read_of_unbox {input : String} {ls : List Lexeme} {inner : List Token} {stop : Nat}
    (h : Lexeme.Reads input.toList ls) (hne : Lexeme.tokensFrom 0 ls ≠ [])
    (hu : unbox (Lexeme.tokensFrom 0 ls) (Text.size input.toList) = .ok (inner, stop)) :
    read declared input = .ok ((splitMembers stop 0 inner).map fun (part, stop) =>
      ⟨sourceOf input part, readMember declared part stop⟩) := by
  have hlex : Token.lex input = .ok (Lexeme.tokensFrom 0 ls) :=
    Token.lexFrom_eq_ok.2 ⟨ls, h, rfl⟩
  simp [read, hlex, hne, hu, bind, Except.bind, pure, Except.pure]

end Answer

end AnswerKey

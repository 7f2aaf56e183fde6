import AnswerKey.Proofs.Grammar.Steps.Name

/-! Two token lists that say the same at other places, and cursors that go
through both of them side by side. -/
namespace AnswerKey

inductive Both {ε δ α β : Type} (err : ε → δ → Prop) (val : α → β → Prop) :
    Except ε α → Except δ β → Prop
  | error {e : ε} {e' : δ} (h : err e e') : Both err val (.error e) (.error e')
  | ok {x : α} {y : β} (h : val x y) : Both err val (.ok x) (.ok y)

namespace Both

variable {ε δ α β γ η : Type} {err : ε → δ → Prop} {val : α → β → Prop} {val' : γ → η → Prop}
  {a : Except ε α} {b : Except δ β}

theorem bind {f : α → Except ε γ} {f' : β → Except δ η} (h : Both err val a b)
    (hf : ∀ x y, val x y → Both err val' (f x) (f' y)) : Both err val' (a >>= f) (b >>= f') := by
  cases h with
  | error h => exact .error h
  | ok h => exact hf _ _ h

theorem mapError {ε' δ' : Type} {err' : ε' → δ' → Prop} {g : ε → ε'} {g' : δ → δ'}
    (h : Both err val a b) (hg : ∀ e e', err e e' → err' (g e) (g' e')) :
    Both err' val (a.mapError g) (b.mapError g') := by
  cases h with
  | error h => exact .error (hg _ _ h)
  | ok h => exact .ok h

end Both

namespace Token

def written (t : Token) : Kind × String := (t.kind, t.text)

def behind (t : Token) (taken left : List Char) : Token :=
  { t with text := String.ofList left, start := t.start + taken.length }

theorem behind_nil (t : Token) : t.behind [] t.text.toList = t := by simp [behind]

end Token

/-- Errors that expect the same: at the ends of both lists, or behind the same
digits of tokens at the same place, where the same is found. -/
inductive SameError (ts us : List Token) (limit limit' : Nat) : SyntaxError → SyntaxError → Prop
  | atEnd (expected : Expected) :
      SameError ts us limit limit' ⟨limit, expected, .endOfInput⟩ ⟨limit', expected, .endOfInput⟩
  | atToken {i : Nat} {t u : Token} {taken left : List Char} (here : ts[i]? = some t)
      (there : us[i]? = some u) (text : t.text.toList = taken ++ left)
      (digits : ∀ d ∈ taken, d.isDigit = true) (expected : Expected) :
      SameError ts us limit limit' ⟨t.start + taken.length, expected, .token (String.ofList left)⟩
        ⟨u.start + taken.length, expected, .token (String.ofList left)⟩

namespace Grammar

/-- Two token lists that say the same, and the positions that errors at their ends
report. -/
structure Twins where
  first : List Token
  second : List Token
  limit : Nat
  limit' : Nat
  alike : second.map Token.written = first.map Token.written

namespace Twins

variable (T : Twins)

/-- Cursors at the same place of both lists: behind the same digits of a token, or
at the ends. -/
inductive Beside : Cursor → Cursor → Prop
  | inside {before after before' after' : List Token} {t u : Token} {taken left : List Char}
      (first : T.first = before ++ t :: after) (second : T.second = before' ++ u :: after')
      (place : before'.length = before.length) (text : t.text.toList = taken ++ left)
      (digits : ∀ d ∈ taken, d.isDigit = true) :
      Beside ⟨t.behind taken left :: after, before.getLast?.map (·.stop), T.limit⟩
        ⟨u.behind taken left :: after', before'.getLast?.map (·.stop), T.limit'⟩
  | ended (p q : Option Nat) : Beside ⟨[], p, T.limit⟩ ⟨[], q, T.limit'⟩

def Flush : Prop :=
  ∀ (i k : Nat) (t v u w : Token), T.first[i]? = some t → T.first[i + 1]? = some v →
    T.second[i]? = some u → T.second[i + 1]? = some w →
      (v.start + k = t.stop ↔ w.start + k = u.stop)

/-- Only where bare arguments are read does it matter what touches. -/
def Spaced : Prop := (∀ t ∈ T.first, ∀ f, t.kind ≠ .function f) ∨ T.Flush

variable {T} {c d : Cursor} {k : Token.Kind}

theorem written_of_append {before after before' after' : List Token}
    (first : T.first = before ++ after) (second : T.second = before' ++ after')
    (place : before'.length = before.length) :
    after'.map Token.written = after.map Token.written := by
  have h := T.alike
  rw [first, second, List.map_append, List.map_append] at h
  exact (List.append_inj h (by simpa using place)).2

theorem Beside.of_append {before after before' after' : List Token}
    (first : T.first = before ++ after) (second : T.second = before' ++ after')
    (place : before'.length = before.length) :
    T.Beside ⟨after, before.getLast?.map (·.stop), T.limit⟩
      ⟨after', before'.getLast?.map (·.stop), T.limit'⟩ := by
  have h := written_of_append first second place
  match after, after', h with
  | [], [], _ => exact .ended _ _
  | t :: ts, u :: us, h =>
    have text : u.text = t.text := by simp_all [Token.written]
    have step : T.Beside ⟨t.behind [] t.text.toList :: ts, _, _⟩
        ⟨u.behind [] t.text.toList :: us, _, _⟩ := .inside first second place rfl (by simp)
    rwa [Token.behind_nil, ← text, Token.behind_nil] at step

theorem Beside.start : T.Beside (.start T.first T.limit) (.start T.second T.limit') :=
  @of_append T [] T.first [] T.second rfl rfl rfl

namespace Beside

theorem written (h : T.Beside c d) :
    d.tokens.map Token.written = c.tokens.map Token.written := by
  cases h with
  | inside first second place =>
    have h := written_of_append first second place
    simp_all [Token.written, Token.behind]
  | ended => rfl

theorem kindAt (h : T.Beside c d) (n : Nat) : d.kindAt n = c.kindAt n := by
  have := congrArg (fun ws => ws[n]?.map Prod.fst) h.written
  simpa [Cursor.kindAt, Token.written, Function.comp_def] using this

theorem kind (h : T.Beside c d) : d.kind = c.kind := h.kindAt 0

theorem text (h : T.Beside c d) : d.text = c.text := by
  have := congrArg (fun ws => ws.head?.map Prod.snd) h.written
  have htext : d.tokens.head?.map (·.text) = c.tokens.head?.map (·.text) := by
    simpa [Token.written, Function.comp_def] using this
  simp [Cursor.text, htext]

theorem tokens_eq_nil (h : T.Beside c d) : d.tokens = [] ↔ c.tokens = [] := by
  rw [← List.map_eq_nil_iff (f := Token.written), h.written, List.map_eq_nil_iff]

theorem size (h : T.Beside c d) : d.size = c.size := by
  have size_eq (c : Cursor) : c.size = (c.tokens.map Token.written).foldr
      (fun w n => (if w.1 = .number then w.2.length + 1 else 1) + n) 0 := by
    rw [List.foldr_map]
    rfl
  rw [size_eq, size_eq, h.written]

theorem next (h : T.Beside c d) : T.Beside c.next d.next := by
  cases h with
  | @inside before after before' after' t u _ _ first second place =>
    have first : T.first = (before ++ [t]) ++ after := by simp [first]
    have second : T.second = (before' ++ [u]) ++ after' := by simp [second]
    have step := Beside.of_append first second (by simp [place])
    simpa [Cursor.next, Token.behind] using step
  | ended => exact .ended _ _

theorem skip (h : T.Beside c d) (n : Nat) : T.Beside (c.skip n) (d.skip n) := by
  induction n generalizing c d with
  | zero => exact h
  | succ n ih => exact ih h.next

theorem words (h : T.Beside c d) :
    (d.tokens.takeWhile isWordPart).map Token.written =
      (c.tokens.takeWhile isWordPart).map Token.written := by
  have run_eq (ts : List Token) : (ts.takeWhile isWordPart).map Token.written =
      (ts.map Token.written).takeWhile (fun w => w.1 = .number || w.1 = .symbol) := by
    rw [List.takeWhile_map]
    rfl
  rw [run_eq, run_eq, h.written]

theorem errorAt (h : T.Beside c d) (e : Expected) :
    SameError T.first T.second T.limit T.limit' (c.errorAt e) (d.errorAt e) := by
  cases h with
  | @inside before _ _ _ _ _ _ _ first second place text digits =>
    exact .atToken (i := before.length) (by simp [first]) (by simp [second, ← place]) text digits e
  | ended => exact .atEnd e

theorem mem_of_kind (h : T.Beside c d) (here : c.kind = some k) :
    ∃ t ∈ T.first, t.kind = k := by
  cases h with
  | @inside _ _ _ _ t _ _ _ first =>
    exact ⟨t, by simp [first], by simpa [Cursor.kind, Cursor.kindAt, Token.behind] using here⟩
  | ended => simp [Cursor.kind, Cursor.kindAt] at here

theorem takeDigit (h : T.Beside c d) :
    c.takeDigit? = none ∧ d.takeDigit? = none ∨
      ∃ digit c' d', c.takeDigit? = some (digit, c') ∧ d.takeDigit? = some (digit, d') ∧
        T.Beside c' d' := by
  have next := h.next
  have kinds := h.kind
  cases h with
  | @inside before after before' after' t u taken left first second place text digits =>
    have same : u.kind = t.kind := by simpa [Cursor.kind, Cursor.kindAt, Token.behind] using kinds
    by_cases number : t.kind = .number
    · cases left with
      | nil => exact .inl (by simp [Cursor.takeDigit?, Token.behind, number, same])
      | cons x others =>
        by_cases digit : x.isDigit = true
        · by_cases last : others = []
          · refine .inr ⟨x.toString, _, _, ?_, ?_, next⟩ <;>
              simp [Cursor.takeDigit?, Token.behind, number, same, digit, last]
          · have text : t.text.toList = (taken ++ [x]) ++ others := by simpa using text
            refine .inr ⟨x.toString, _, _, ?_, ?_, Beside.inside first second place text ?_⟩
            · simp [Cursor.takeDigit?, Token.behind, number, digit, last, Nat.add_assoc]
            · simp [Cursor.takeDigit?, Token.behind, number, same, digit, last, Nat.add_assoc]
            · intro y hy
              obtain hy | rfl : y ∈ taken ∨ y = x := by simpa using hy
              · exact digits y hy
              · exact digit
        · exact .inl (by simp [Cursor.takeDigit?, Token.behind, number, same, digit])
    · exact .inl (by simp [Cursor.takeDigit?, Token.behind, number, same])
  | ended => exact .inl ⟨rfl, rfl⟩

theorem touchesPrevious (h : T.Beside c d) (flush : T.Flush) :
    d.touchesPrevious = c.touchesPrevious := by
  cases h with
  | @inside before after before' after' t u taken left first second place =>
    obtain rfl | ⟨b, v, rfl⟩ := before.eq_nil_or_concat
    · obtain rfl := List.eq_nil_of_length_eq_zero place
      rfl
    · obtain rfl | ⟨b', w, rfl⟩ := before'.eq_nil_or_concat
      · simp at place
      · have place : b'.length = b.length := by simpa using place
        have touch := flush b.length taken.length v t w u (by simp [first]) (by simp [first])
          (by simp [second, ← place]) (by simp [second, ← place])
        rw [Bool.eq_iff_iff]
        simpa [Cursor.touchesPrevious, Token.behind] using touch.symm
  | ended p q => cases p <;> cases q <;> rfl

end Beside

end Twins

end Grammar

end AnswerKey

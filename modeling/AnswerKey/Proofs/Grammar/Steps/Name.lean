import AnswerKey.Formula.Grammar
import AnswerKey.Proofs.Success

/-! What a successful reading of a rule consists of: for each rule one case for
each way in which it succeeds, with the readings of the rules that it calls.
Here for the names of symbols. -/
namespace AnswerKey

namespace Cursor

variable {c c' : Cursor} {k : Token.Kind} {e : Expected}

theorem expect_eq_ok : c.expect k e = .ok c' ↔ c.kind = some k ∧ c.next = c' := by
  unfold expect
  split <;> simp_all

theorem kind_eq_some : c.kind = some k ↔ ∃ t rest, c.tokens = t :: rest ∧ t.kind = k := by
  cases h : c.tokens with
  | nil => simp [kind, kindAt, h]
  | cons t rest => simp [kind, kindAt, h]

@[simp] theorem kindAt_next (n : Nat) : c.next.kindAt n = c.kindAt (n + 1) := by
  cases h : c.tokens with
  | nil => simp [next, kindAt, h]
  | cons t rest => simp [next, kindAt, h]

theorem kind_next : c.next.kind = c.kindAt 1 := kindAt_next 0

theorem next_of_cons {t : Token} {ts : List Token} (h : c.tokens = t :: ts) :
    c.next = ⟨ts, some t.stop, c.limit⟩ := by simp [next, h]

theorem tokens_next_of_cons {t : Token} {ts : List Token} (h : c.tokens = t :: ts) :
    c.next.tokens = ts := by rw [next_of_cons h]

/-- A digit taken from a number: its last character, or one with others left
behind it. -/
inductive DigitStep (c : Cursor) : String → Cursor → Prop
  | last {t : Token} {rest : List Token} {d : Char} (here : c.tokens = t :: rest)
      (number : t.kind = .number) (text : t.text.toList = [d]) (isDigit : d.isDigit = true) :
      DigitStep c d.toString c.next
  | more {t : Token} {rest : List Token} {d : Char} {others : List Char}
      (here : c.tokens = t :: rest) (number : t.kind = .number)
      (text : t.text.toList = d :: others) (isDigit : d.isDigit = true) (left : others ≠ []) :
      DigitStep c d.toString { c with
        tokens := { t with text := String.ofList others, start := t.start + 1 } :: rest }

theorem takeDigit_eq_some {digit : String} :
    c.takeDigit? = some (digit, c') ↔ DigitStep c digit c' := by
  constructor
  · intro h
    unfold takeDigit? at h
    split at h
    · cases h
    · next t rest here =>
      split at h
      · next number =>
        split at h
        · cases h
        · next d others text =>
          split at h
          · next isDigit =>
            split at h
            · next last =>
              obtain ⟨rfl, rfl⟩ := Prod.mk.inj (Option.some.inj h)
              exact .last here number (last ▸ text) isDigit
            · next left =>
              obtain ⟨rfl, rfl⟩ := Prod.mk.inj (Option.some.inj h)
              exact .more here number text isDigit left
          · cases h
      · cases h
  · intro h
    cases h with
    | last here number text isDigit => simp [takeDigit?, here, number, text, isDigit]
    | more here number text isDigit left => simp [takeDigit?, here, number, text, isDigit, left]

theorem kind_of_takeDigit {digit : String} (h : c.takeDigit? = some (digit, c')) :
    c.kind = some .number := by
  cases takeDigit_eq_some.1 h with
  | last here number | more here number => exact kind_eq_some.2 ⟨_, _, here, number⟩

end Cursor

namespace Grammar

@[simp] theorem lift_eq_ok {α : Type} {a : Except SyntaxError α} {x : α} :
    (liftM a : Attempt α) = .ok x ↔ a = .ok x := mapError_eq_ok

@[simp] theorem refuse_ne_ok {α : Type} {c : Cursor} {e : Expected} {x : α} :
    refuse c e ≠ .ok x := by simp [refuse]

inductive SubscriptStep (c : Cursor) : String → Cursor → Prop
  | braced {run : List Token} {name : String} {after : Cursor}
      (opened : c.kind = some (.opening .curly))
      (words : run = c.next.tokens.takeWhile isWordPart)
      (joined : name = String.join (run.map (·.text))) (nonempty : name ≠ "")
      (stop : after = c.next.skip run.length)
      (closed : after.kind = some (.closing .curly)) : SubscriptStep c name after.next
  | digit {name : String} {after : Cursor} (taken : c.takeDigit? = some (name, after)) :
      SubscriptStep c name after
  | symbol (here : c.kind = some .symbol) : SubscriptStep c c.text c.next

variable {c c' : Cursor} {name : String}

theorem subscript_eq_ok : subscript c = .ok (name, c') ↔ SubscriptStep c name c' := by
  constructor
  · intro h
    unfold subscript at h
    split at h
    · next hk =>
      simp only at h
      split at h
      · simp at h
      · next hn =>
        simp only [bind_eq_ok, pure_eq_ok, Prod.mk.injEq] at h
        obtain ⟨after, he, rfl, rfl⟩ := h
        obtain ⟨hc, rfl⟩ := Cursor.expect_eq_ok.1 he
        exact .braced hk rfl rfl hn rfl hc
    · split at h
      · next r hr =>
        obtain rfl : r = (name, c') := by simpa using h
        exact .digit hr
      · split at h
        · next hk =>
          obtain ⟨rfl, rfl⟩ : c.text = name ∧ c.next = c' := by simpa using h
          exact .symbol hk
        · simp at h
  · intro h
    cases h with
    | braced opened words joined nonempty stop closed =>
      subst words joined stop
      simp [subscript, opened, nonempty, Cursor.expect_eq_ok, closed]
    | digit taken => simp [subscript, Cursor.kind_of_takeDigit taken, taken]
    | symbol here =>
      have : c.takeDigit? = none := by
        cases ht : c.takeDigit? with
        | none => rfl
        | some r => simp [Cursor.kind_of_takeDigit ht] at here
      simp [subscript, here, this]

inductive SymbolNameStep (c : Cursor) : String → Cursor → Prop
  | plain (here : c.kind = some .symbol) (bare : c.next.kind ≠ some .underscore) :
      SymbolNameStep c c.text c.next
  | subscripted {sub : String} {after : Cursor} (here : c.kind = some .symbol)
      (mark : c.next.kind = some .underscore) (below : SubscriptStep c.next.next sub after) :
      SymbolNameStep c (c.text ++ "_" ++ sub) after

theorem symbolName_eq_ok : symbolName c = .ok (name, c') ↔ SymbolNameStep c name c' := by
  constructor
  · intro h
    unfold symbolName at h
    split at h
    · next hk =>
      split at h
      · next hu =>
        simp only [bind_eq_ok, Prod.exists, pure_eq_ok, Prod.mk.injEq] at h
        obtain ⟨sub, after, hs, rfl, rfl⟩ := h
        exact .subscripted hk hu (subscript_eq_ok.1 hs)
      · next hu =>
        obtain ⟨rfl, rfl⟩ : c.text = name ∧ c.next = c' := by simpa using h
        exact .plain hk hu
    · simp at h
  · intro h
    cases h with
    | plain here bare => simp [symbolName, here, bare]
    | subscripted here mark below =>
      simp [symbolName, here, mark, subscript_eq_ok.2 below]

end Grammar

end AnswerKey

import AnswerKey.Proofs.Grammar.Steps.Name

/-! What a reading may pass over: single tokens other than boxes, digits taken
from a number, and curly braces in matching pairs. -/
namespace AnswerKey

def Token.Kind.isPlain : Token.Kind → Bool
  | .opening .curly | .closing .curly | .boxed => false
  | _ => true

namespace Cursor

inductive Passes : Cursor → Cursor → Prop
  | refl (c : Cursor) : Passes c c
  | step {c c' : Cursor} {k : Token.Kind} (here : c.kind = some k) (plain : k.isPlain = true)
      (rest : Passes c.next c') : Passes c c'
  | digit {c middle c' : Cursor} {digit : String} (taken : c.takeDigit? = some (digit, middle))
      (rest : Passes middle c') : Passes c c'
  | braced {c middle c' : Cursor} (opened : c.kind = some (.opening .curly))
      (inside : Passes c.next middle) (closed : middle.kind = some (.closing .curly))
      (rest : Passes middle.next c') : Passes c c'

namespace Passes

variable {c middle c' : Cursor} {k : Token.Kind} {d : Delimiter}

theorem trans (h : Passes c middle) (h' : Passes middle c') : Passes c c' := by
  induction h with
  | refl => exact h'
  | step here plain _ ih => exact .step here plain (ih h')
  | digit taken _ ih => exact .digit taken (ih h')
  | braced opened inside closed _ _ ih => exact .braced opened inside closed (ih h')

theorem next (here : c.kind = some k) (plain : k.isPlain = true) : Passes c c.next :=
  .step here plain (.refl _)

theorem taking {digit : String} (taken : c.takeDigit? = some (digit, c')) : Passes c c' :=
  .digit taken (.refl _)

theorem enclosed (opened : c.kind = some (.opening d)) (inside : Passes c.next middle)
    (closed : middle.kind = some (.closing d)) : Passes c middle.next := by
  by_cases hd : d = .curly
  · subst hd
    exact .braced opened inside closed (.refl _)
  · have ho : (Token.Kind.opening d).isPlain = true := by cases d <;> simp_all [Token.Kind.isPlain]
    have hc : (Token.Kind.closing d).isPlain = true := by cases d <;> simp_all [Token.Kind.isPlain]
    exact .step opened ho (inside.trans (.next closed hc))

theorem skip_words (c : Cursor) :
    Passes c (c.skip (c.tokens.takeWhile Grammar.isWordPart).length) := by
  obtain ⟨tokens, stop, limit⟩ := c
  induction tokens generalizing stop with
  | nil => exact .refl _
  | cons t rest ih =>
    by_cases ht : Grammar.isWordPart t
    · have hk : t.kind.isPlain = true := by
        simp only [Grammar.isWordPart, Bool.or_eq_true, decide_eq_true_eq] at ht
        rcases ht with hk | hk <;> simp [hk, Token.Kind.isPlain]
      rw [List.takeWhile_cons_of_pos ht, List.length_cons]
      exact .step rfl hk (ih (some t.stop))
    · rw [List.takeWhile_cons_of_neg ht]
      exact .refl _

end Passes

end Cursor

namespace Grammar

open Cursor (Passes)

variable {c c' : Cursor} {name : String}

theorem passes_of_subscript (h : subscript c = .ok (name, c')) : Passes c c' := by
  cases subscript_eq_ok.1 h with
  | braced opened words _ _ stop closed =>
    subst words stop
    exact .enclosed opened (.skip_words _) closed
  | digit taken => exact .taking taken
  | symbol here => exact .next here rfl

theorem passes_of_symbolName (h : symbolName c = .ok (name, c')) : Passes c c' := by
  cases symbolName_eq_ok.1 h with
  | plain here _ => exact .next here rfl
  | subscripted here mark below =>
    exact .step here rfl (.step mark rfl (passes_of_subscript (subscript_eq_ok.2 below)))

end Grammar

end AnswerKey

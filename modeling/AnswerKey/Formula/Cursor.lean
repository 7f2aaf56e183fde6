import AnswerKey.Formula.Error

/-! A place in a token list, and the steps that move it forward. -/
namespace AnswerKey

/-- The tokens still to read. A `limit` is the position that an error at the
end reports. -/
structure Cursor where
  tokens : List Token
  previousStop : Option Nat
  limit : Nat

namespace Cursor

def start (tokens : List Token) (limit : Nat) : Cursor := ⟨tokens, none, limit⟩

def kindAt (c : Cursor) (n : Nat) : Option Token.Kind := c.tokens[n]?.map (·.kind)

def kind (c : Cursor) : Option Token.Kind := c.kindAt 0

def text (c : Cursor) : String := (c.tokens.head?.map (·.text)).getD ""

def next (c : Cursor) : Cursor :=
  match c.tokens with
  | [] => c
  | t :: rest => { c with tokens := rest, previousStop := some t.stop }

def skip : Nat → Cursor → Cursor
  | 0, c => c
  | n + 1, c => skip n c.next

def errorAt (c : Cursor) (expected : Expected) : SyntaxError :=
  match c.tokens with
  | [] => ⟨c.limit, expected, .endOfInput⟩
  | t :: _ => ⟨t.start, expected, .token t.text⟩

def expect (c : Cursor) (kind : Token.Kind) (expected : Expected) : Except SyntaxError Cursor :=
  if c.kind = some kind then .ok c.next else .error (c.errorAt expected)

/-- Whether the token here starts where the one before it stopped. A number
that has lost digits does not touch the token before it. -/
def touchesPrevious (c : Cursor) : Bool :=
  match c.previousStop, c.tokens with
  | some stop, t :: _ => t.start == stop
  | _, _ => false

/-- Takes the first digit of the number here and leaves its other characters in
place. -/
def takeDigit? (c : Cursor) : Option (String × Cursor) :=
  match c.tokens with
  | [] => none
  | t :: rest =>
    if t.kind = .number then
      match t.text.toList with
      | [] => none
      | d :: others =>
        if d.isDigit then
          if others = [] then
            some (d.toString, c.next)
          else
            let left := { t with text := String.ofList others, start := t.start + 1 }
            some (d.toString, { c with tokens := left :: rest })
        else
          none
    else
      none

theorem length_next_le (c : Cursor) : c.next.tokens.length ≤ c.tokens.length := by
  unfold next
  split <;> simp_all

theorem length_next_lt {c : Cursor} {k : Token.Kind} (h : c.kind = some k) :
    c.next.tokens.length < c.tokens.length := by
  unfold next
  split
  · simp_all [kind, kindAt]
  · simp_all

theorem length_skip_le (n : Nat) (c : Cursor) :
    (c.skip n).tokens.length ≤ c.tokens.length := by
  induction n generalizing c with
  | zero => exact Nat.le_refl _
  | succ n ih => exact Nat.le_trans (ih c.next) c.length_next_le

theorem length_of_expect {c c' : Cursor} {k : Token.Kind} {e : Expected}
    (h : c.expect k e = .ok c') : c'.tokens.length < c.tokens.length := by
  unfold expect at h
  split at h
  · next hk => simp only [Except.ok.injEq] at h; exact h ▸ length_next_lt hk
  · simp at h

theorem length_of_takeDigit {c c' : Cursor} {d : String} (h : c.takeDigit? = some (d, c')) :
    c'.tokens.length ≤ c.tokens.length := by
  unfold takeDigit? at h
  split at h
  · simp at h
  · split at h
    · split at h
      · simp at h
      · split at h
        · split at h
          · simp only [Option.some.injEq, Prod.mk.injEq] at h
            exact h.2 ▸ length_next_le c
          · simp only [Option.some.injEq, Prod.mk.injEq] at h
            simp_all [← h.2]
        · simp at h
    · simp at h

def size (c : Cursor) : Nat :=
  c.tokens.foldr (fun t n => (if t.kind = .number then t.text.length + 1 else 1) + n) 0

end Cursor

end AnswerKey

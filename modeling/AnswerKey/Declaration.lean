import AnswerKey.Formula.Grammar.Name
import AnswerKey.Token.Lexer

/-! Declarations of parameters, such as `a, b_1, \theta`. -/
namespace AnswerKey.Declaration

open Grammar (subscript symbolName)

theorem length_of_subscript {c c' : Cursor} {s : String} (h : subscript c = .ok (s, c')) :
    c'.tokens.length ≤ c.tokens.length := by
  unfold subscript at h
  split at h
  · simp only at h
    split at h
    · simp at h
    · generalize ha : Cursor.skip _ c.next = after at h
      cases he : after.expect (.closing .curly) (.closing .curly) with
      | error e => simp [he, bind, Except.bind] at h
      | ok last =>
        simp only [he, bind, Except.bind, pure, Except.pure, Except.ok.injEq, Prod.mk.injEq] at h
        have h1 := Cursor.length_of_expect he
        have h2 : after.tokens.length ≤ c.next.tokens.length := ha ▸ Cursor.length_skip_le _ _
        have h3 := c.length_next_le
        rw [← h.2]
        omega
  · split at h
    · next r hd =>
      simp only [Except.ok.injEq] at h
      exact Cursor.length_of_takeDigit (h ▸ hd)
    · split at h
      · simp only [Except.ok.injEq, Prod.mk.injEq] at h
        exact h.2 ▸ c.length_next_le
      · simp at h

theorem length_of_symbolName {c c' : Cursor} {s : String} (h : symbolName c = .ok (s, c')) :
    c'.tokens.length < c.tokens.length := by
  unfold symbolName at h
  split at h
  · next hk =>
    have h1 := Cursor.length_next_lt hk
    split at h
    · cases hs : subscript c.next.next with
      | error e => simp [hs, bind, Except.bind] at h
      | ok r =>
        obtain ⟨sub, after⟩ := r
        simp only [hs, bind, Except.bind, pure, Except.pure, Except.ok.injEq, Prod.mk.injEq] at h
        have h2 := length_of_subscript hs
        have h3 := c.next.length_next_le
        rw [← h.2]
        omega
    · simp only [Except.ok.injEq, Prod.mk.injEq] at h
      exact h.2 ▸ h1
  · simp at h

/-- A declared name starts with one letter or one Greek letter. -/
def startsName (t : Token) : Bool :=
  t.kind = .symbol && (Text.size t.text.toList = 1 || (Token.greekLetter? t.text).isSome)

def afterName (c : Cursor) : Except SyntaxError Cursor :=
  if c.tokens = [] then .ok c
  else if c.kind = some .comma || c.kind = some .semicolon then .ok c.next
  else .error (c.errorAt .comma)

theorem length_of_afterName {c c' : Cursor} (h : afterName c = .ok c') :
    c'.tokens.length ≤ c.tokens.length := by
  unfold afterName at h
  split at h
  · simp only [Except.ok.injEq] at h; simp [h]
  · split at h
    · simp only [Except.ok.injEq] at h; exact h ▸ c.length_next_le
    · simp at h

/-- The names that the tokens declare, in order and with repetitions. -/
def namesFrom (c : Cursor) : Except SyntaxError (List String) :=
  match c.tokens with
  | [] => .ok []
  | t :: _ =>
    if startsName t then
      match _hn : symbolName c with
      | .error e => .error e
      | .ok (name, after) =>
        match _hs : afterName after with
        | .error e => .error e
        | .ok next => (namesFrom next).map (name :: ·)
    else
      .error (c.errorAt .parameterName)
termination_by c.tokens.length
decreasing_by
  have h1 := length_of_symbolName _hn
  have h2 := length_of_afterName _hs
  omega

def distinct (names : List String) : List String := names.eraseDups

inductive Error where
  | lexical (e : LexicalError)
  | grammatical (e : SyntaxError)

def Error.message : Error → String
  | lexical e => e.message
  | grammatical e => e.message

def names (source : String) : Except Error (List String) := do
  let tokens ← (Token.lex source).mapError .lexical
  let names ← (namesFrom (.start tokens (Text.size source.toList))).mapError .grammatical
  return distinct names

end AnswerKey.Declaration

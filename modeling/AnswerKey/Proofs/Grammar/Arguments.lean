import AnswerKey.Proofs.Grammar.Depth

/-! Arguments of function words that stand without brackets: where they start, and
how far they go on. -/
namespace AnswerKey

namespace Cursor

theorem Passes.length_le {c c' : Cursor} (h : Passes c c') :
    c'.tokens.length ≤ c.tokens.length := by
  induction h with
  | refl => exact Nat.le_refl _
  | @step c _ _ _ _ _ ih => exact Nat.le_trans ih c.length_next_le
  | digit taken _ ih => exact Nat.le_trans ih (length_of_takeDigit taken)
  | @braced c middle _ _ _ _ _ ihInside ih =>
    exact Nat.le_trans ih (Nat.le_trans middle.length_next_le
      (Nat.le_trans ihInside c.length_next_le))

end Cursor

namespace Grammar

open Cursor (Passes)

/-- Behind a function word and what is written on it the argument starts. -/
def ArgumentFrom (declared : List String) (f : Builtin) (c first : Cursor) : Prop :=
  ∃ depth base middle r, logBase (rules declared depth) f c = .ok (base, middle) ∧
    functionExponent (rules declared depth) f middle = .ok (r, first)

theorem ArgumentFrom.passes {declared : List String} {f : Builtin} {c first : Cursor}
    (h : ArgumentFrom declared f c first) : Passes c first := by
  obtain ⟨depth, base, middle, r, below, above⟩ := h
  have sound := sound_rules declared depth
  exact (sound.ofLogBase below).2.trans (sound.ofFunctionExponent above).2

theorem ArgumentFrom.eq_of_unmarked {declared : List String} {f : Builtin} {c first : Cursor}
    (h : ArgumentFrom declared f c first) (base : c.kind ≠ some .underscore)
    (exponent : c.kind ≠ some .caret) : first = c := by
  obtain ⟨depth, _, _, _, below, above⟩ := h
  cases logBase_eq_ok.1 below with
  | written _ mark => exact absurd mark base
  | absent =>
    cases functionExponent_eq_ok.1 above with
    | written mark => exact absurd mark exponent
    | absent => rfl

theorem argumentFrom_full {declared : List String} {f : Builtin} {c middle first : Cursor}
    {base : Option Formula} {r : Builtin × Option Formula}
    (below : logBase (Rules.full declared) f c = .ok (base, middle))
    (above : functionExponent (Rules.full declared) f middle = .ok (r, first)) :
    ArgumentFrom declared f c first := by
  let depth := max (sufficientDepth c) (sufficientDepth middle)
  have hbelow : logBase (Rules.full declared) f c = logBase (rules declared depth) f c :=
    (Rules.settled_full .logBase f c (Nat.le_trans
      (Rule.depth_le_sufficient _ c) (Nat.le_max_left _ _ : _ ≤ depth))).eq
  have habove : functionExponent (Rules.full declared) f middle =
      functionExponent (rules declared depth) f middle :=
    (Rules.settled_full .functionExponent f middle (Nat.le_trans
      (Rule.depth_le_sufficient _ middle) (Nat.le_max_right _ _ : _ ≤ depth))).eq
  exact ⟨depth, base, middle, r, hbelow.symm.trans below, habove.symm.trans above⟩

/-- Some function word from here on has an argument of a kind. -/
inductive HasArgument (declared : List String) (p : Cursor → Prop) : Cursor → Prop
  | here {c first : Cursor} {f : Builtin} (word : c.kind = some (.function f))
      (argument : ArgumentFrom declared f c.next first) (h : p first) : HasArgument declared p c
  | later {c : Cursor} (h : HasArgument declared p c.next) : HasArgument declared p c

inductive PlainFactor : Cursor → Cursor → Prop
  | number {c : Cursor} (here : c.kind = some .number) : PlainFactor c c.next
  | infinity {c : Cursor} (here : c.kind = some .infinity) : PlainFactor c c.next
  | name {c c' : Cursor} {name : String} (read : symbolName c = .ok (name, c')) : PlainFactor c c'

/-- Plain factors, flush with one another, lead to a symbol that has its subscript at
the start of `rest`. -/
inductive RunsTo (rest : List Token) : Cursor → Prop
  | here {c : Cursor} {t u : Token} (tokens : c.tokens = t :: u :: rest)
      (symbol : t.kind = .symbol) (mark : u.kind = .underscore) : RunsTo rest c
  | factor {c c' : Cursor} (first : PlainFactor c c') (flush : c'.touchesPrevious = true)
      (more : RunsTo rest c') : RunsTo rest c

/-- An argument without brackets, with its signs, is open where `rest` starts with the
subscript of a symbol in it. -/
inductive OpenAt (rest : List Token) : Cursor → Prop
  | sign {c : Cursor} (sign : isSign c.kind = true) (more : OpenAt rest c.next) : OpenAt rest c
  | run {c : Cursor} (h : RunsTo rest c) : OpenAt rest c

/-- An argument without brackets takes all tokens that are left. -/
def TakesAll (declared : List String) (c : Cursor) : Prop :=
  (∀ e ∈ aroundArguments, c.kind ≠ some (.opening e)) ∧ ∃ depth insideBars x last,
    (rules declared depth).signedTerm { bareArgument := true, insideBars } c = .ok (x, last) ∧
      last.kind = none

variable {declared : List String} {p : Cursor → Prop} {c c' : Cursor} {rest : List Token}

theorem hasArgument_nil (q : Option Nat) (limit : Nat) :
    ¬HasArgument declared p ⟨[], q, limit⟩ := by
  intro h
  generalize hc : (⟨[], q, limit⟩ : Cursor) = c at h
  induction h with
  | here word => subst hc; cases word
  | later _ ih => subst hc; exact ih rfl

theorem hasArgument_cons {t : Token} {ts : List Token} (q : Option Nat) (limit : Nat) :
    HasArgument declared p ⟨t :: ts, q, limit⟩ ↔
      (∃ f first, t.kind = .function f ∧ ArgumentFrom declared f ⟨ts, some t.stop, limit⟩ first ∧
        p first) ∨ HasArgument declared p ⟨ts, some t.stop, limit⟩ := by
  constructor
  · intro h
    cases h with
    | here word argument h => exact .inl ⟨_, _, Option.some.inj word, argument, h⟩
    | later h => exact .inr h
  · rintro (⟨f, first, word, argument, h⟩ | h)
    · exact .here (congrArg some word) argument h
    · exact .later h

theorem HasArgument.previousStop {ts : List Token} {q : Option Nat} {limit : Nat}
    (h : HasArgument declared p ⟨ts, q, limit⟩) (q' : Option Nat) :
    HasArgument declared p ⟨ts, q', limit⟩ := by
  cases ts with
  | nil => exact absurd h (hasArgument_nil q limit)
  | cons t ts => exact (hasArgument_cons q' limit).2 ((hasArgument_cons q limit).1 h)

theorem HasArgument.of_takeDigit {digit : String} (taken : c.takeDigit? = some (digit, c'))
    (h : HasArgument declared p c') : HasArgument declared p c := by
  cases Cursor.takeDigit_eq_some.1 taken with
  | last => exact .later h
  | more here number =>
    cases h with
    | here word =>
      cases (congrArg some number).symm.trans word
    | later h =>
      refine .later ?_
      rwa [Cursor.next_of_cons here]

theorem PlainFactor.kind (h : PlainFactor c c') :
    c.kind = some .number ∨ c.kind = some .infinity ∨ c.kind = some .symbol := by
  cases h with
  | number here => exact .inl here
  | infinity here => exact .inr (.inl here)
  | name read => exact .inr (.inr (kind_of_symbolName read))

theorem RunsTo.kind (h : RunsTo rest c) :
    c.kind = some .number ∨ c.kind = some .infinity ∨ c.kind = some .symbol := by
  cases h with
  | here tokens symbol => exact .inr (.inr (Cursor.kind_eq_some.2 ⟨_, _, tokens, symbol⟩))
  | factor first => exact first.kind

theorem PlainFactor.length_le (h : PlainFactor c c') : c'.tokens.length ≤ c.tokens.length := by
  cases h with
  | number | infinity => exact c.length_next_le
  | name read => exact (passes_of_symbolName read).length_le

theorem RunsTo.length_le (h : RunsTo rest c) : rest.length + 2 ≤ c.tokens.length := by
  induction h with
  | here tokens => simp [tokens]
  | factor first _ _ ih => exact Nat.le_trans ih first.length_le

theorem OpenAt.length_le (h : OpenAt rest c) : rest.length + 2 ≤ c.tokens.length := by
  induction h with
  | @sign c _ _ ih => exact Nat.le_trans ih c.length_next_le
  | run h => exact h.length_le

end Grammar

end AnswerKey

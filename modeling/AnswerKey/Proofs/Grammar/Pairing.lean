import AnswerKey.Proofs.Grammar.Arguments
import AnswerKey.Proofs.Grammar.Starts

/-! When a second text is read as a first one is. The two cursors go side by
side: their tokens are of the same kinds, but for a digit behind a script mark
that may have braces in one of them, and the second text may go on with a tail
behind the end of the first. -/
namespace AnswerKey

namespace Formula

/-- The part of a formula behind which no token of it stands. A powered
application does not tell whether its argument had brackets. -/
def lastPart? : Formula → Option Formula
  | negated x | binary _ _ x | juxtaposed _ _ x | apply _ (x :: _) false | powered _ _ (x :: _)
  | aggregate _ _ _ _ x | integral _ _ x | limit _ _ _ x => some x
  | _ => none

inductive EndsWith (whole : Formula) : Formula → Prop
  | whole : EndsWith whole whole
  | inside {f g : Formula} (around : EndsWith whole f) (last : f.lastPart? = some g) :
      EndsWith whole g

theorem EndsWith.of_lastPart {f g h : Formula} (last : f.lastPart? = some g)
    (hg : g.EndsWith h) : f.EndsWith h := by
  induction hg with
  | whole => exact .inside .whole last
  | inside _ last ih => exact .inside ih last

theorem EndsWith.eq_whole {f g : Formula} (h : f.EndsWith g) (last : f.lastPart? = none) :
    g = f := by
  induction h with
  | whole => rfl
  | inside _ part ih => simp [ih, last] at part

theorem EndsWith.eq_or_lastPart {f g part : Formula} (h : f.EndsWith g)
    (last : f.lastPart? = some part) : g = f ∨ part.EndsWith g := by
  induction h with
  | whole => exact .inl rfl
  | inside _ within ih =>
    obtain rfl | ends := ih
    · obtain rfl := Option.some.inj (last.symm.trans within)
      exact .inr .whole
    · exact .inr (.inside ends within)

/-- Formulas that take a differential behind them as their own: a body goes on
with it, and a bra takes it for a ket. -/
def isOpenEnded : Formula → Bool
  | apply .bra _ _ | aggregate _ _ _ _ _ | integral _ _ _ | limit _ _ _ _ => true
  | _ => false

def isPlain : Formula → Bool
  | number _ | symbol _ | infinity => true
  | _ => false

end Formula

/-- Tokens that may stand behind a formula without changing how it is read, where
the mode allows. -/
def Token.Kind.isTrailing : Token.Kind → Bool
  | .caret | .plus | .minus | .differential | .closing _ | .comma | .semicolon | .to => true
  | _ => false

def Token.Kind.isEnding (k : Token.Kind) : Bool := k.isTrailing || k = .pipe

theorem Token.Kind.isEnding_of_isTrailing {k : Token.Kind} (h : k.isTrailing = true) :
    k.isEnding = true := by simp [isEnding, h]

namespace Grammar

open Cursor (Passes)

/-! What has to hold of the tail for a reading to end before it. -/

variable (tail : List Token)

/-- A caret behind a factor writes the side of a limit, and a bar closes. -/
def FactorEnds (mode : Mode) : Prop :=
  ((Cursor.start tail 0).kind = some .caret →
    mode.limitTarget = true ∧ sideFollows (Cursor.start tail 0) = true) ∧
  ((Cursor.start tail 0).kind = some .pipe → mode.insideBars = true)

/-- A differential behind a term stands behind an argument without brackets. -/
def TermEnds (mode : Mode) : Prop :=
  FactorEnds tail mode ∧
    ((Cursor.start tail 0).kind = some .differential → mode.bareArgument = true)

/-- A sign behind a sum writes the side of a limit. -/
def SumEnds (mode : Mode) : Prop :=
  TermEnds tail mode ∧ (isSign (Cursor.start tail 0).kind = true →
    mode.limitTarget = true ∧ (Cursor.start tail 0).kindAt 1 = some (.closing .curly))

def Closes (x : Formula) : Prop :=
  ∀ y, x.EndsWith y → y.isOpenEnded = true → (Cursor.start tail 0).kind ≠ some .differential

variable {tail}

theorem Closes.last {x y : Formula} (h : Closes tail x) (last : x.lastPart? = some y) :
    Closes tail y :=
  fun z hz => h z (hz.of_lastPart last)

theorem TermEnds.ofBody {mode : Mode} {x : Formula} (h : FactorEnds tail mode)
    (hx : Closes tail x) (isOpen : x.isOpenEnded = true) :
    TermEnds tail { mode with bareArgument := false } :=
  ⟨h, fun hd => absurd hd (hx x .whole isOpen)⟩

theorem TermEnds.ofBareArgument {mode : Mode} (h : FactorEnds tail mode)
    (free : (Cursor.start tail 0).kind ≠ some .caret) :
    TermEnds tail { bareArgument := true, insideBars := mode.insideBars } :=
  ⟨⟨fun hc => absurd hc free, h.2⟩, fun _ => rfl⟩

def Braces (digit : String) (c c' : Cursor) : Prop :=
  c.kind = some (.opening .curly) ∧ c.next.kind = some .number ∧ c.next.text = digit ∧
    c.next.next.kind = some (.closing .curly) ∧ c.next.next.next = c'

/-- Cursors behind a script mark: related ones, or a digit that has braces in one
of them. -/
inductive Scripts (rel : Cursor → Cursor → Prop) : Cursor → Cursor → Prop
  | same {c d : Cursor} (h : rel c d) : Scripts rel c d
  | split {digit : String} {c d c' d' : Cursor} (taken : c.takeDigit? = some (digit, c'))
      (braces : Braces digit d d') (after : rel c' d') : Scripts rel c d
  | join {digit : String} {c d c' d' : Cursor} (braces : Braces digit c c')
      (taken : d.takeDigit? = some (digit, d')) (after : rel c' d') : Scripts rel c d

/-- Cursors behind a fraction's mark: the script place is at the first argument or
at its end. -/
inductive Forks (rel : Cursor → Cursor → Prop) : Cursor → Cursor → Prop
  | first {c d : Cursor} (h : Scripts rel c d) : Forks rel c d
  | afterDigit {digit : String} {c d c' d' : Cursor} (taken : c.takeDigit? = some (digit, c'))
      (taken' : d.takeDigit? = some (digit, d')) (after : Scripts rel c' d') : Forks rel c d
  | afterBraces {c d : Cursor} (opened : c.kind = some (.opening .curly))
      (opened' : d.kind = some (.opening .curly)) (inside : rel c.next d.next)
      (closed : ∀ m m', Passes c.next m → m.kind = some (.closing .curly) → rel m m' →
        Scripts rel m.next m'.next) : Forks rel c d

def Tight (c d : Cursor) : Prop := c.kind ≠ none → d.touchesPrevious = c.touchesPrevious

end Grammar

def Token.Kind.isStep : Token.Kind → Bool
  | .caret | .underscore | .sqrt | .frac | .binom | .closing .curly => false
  | _ => true

namespace Grammar

open Cursor (Passes)

/-- Two texts of which the second one is read as the first one. -/
structure Pairing (declared : List String) where
  rel : Cursor → Cursor → Prop
  /-- Where the argument of a function word starts. -/
  starts : Cursor → Cursor → Prop
  /-- Where a factor of an argument without brackets is read. -/
  inside : Cursor → Cursor → Prop
  tail : List Token
  ending : ∀ t ∈ tail.head?, t.kind.isEnding = true
  ended {c d : Cursor} (h : rel c d) (hc : c.kind = none) : d.tokens = tail
  kind {c d : Cursor} {k : Token.Kind} (h : rel c d) (here : c.kind = some k) : d.kind = some k
  text {c d : Cursor} {k : Token.Kind} (h : rel c d) (here : c.kind = some k) : d.text = c.text
  next {c d : Cursor} {k : Token.Kind} (h : rel c d) (here : c.kind = some k)
    (step : k.isStep = true) : rel c.next d.next ∧ Tight c.next d.next
  word {c d first first' : Cursor} {f : Builtin} (h : rel c d)
    (here : c.kind = some (.function f)) (argument : ArgumentFrom declared f c.next first)
    (argument' : ArgumentFrom declared f d.next first') : starts first first'
  /-- A caret in the tail is none for an argument at the end of the first text. -/
  free {c d first : Cursor} {f : Builtin} (h : rel c d) (here : c.kind = some (.function f))
    (argument : ArgumentFrom declared f c.next first) (all : TakesAll declared first) :
    (Cursor.start tail 0).kind ≠ some .caret
  sign {c d : Cursor} (h : starts c d) (here : isSign c.kind = true)
    (here' : isSign d.kind = true) : starts c.next d.next
  factor {c d : Cursor} (h : starts c d) : inside c d
  flush {c d c' d' : Cursor} (h : inside c d) (first : PlainFactor c c')
    (first' : PlainFactor d d') (touch : c'.touchesPrevious = true)
    (touch' : d'.touchesPrevious = true) : inside c' d'
  enclosed {c d m m' : Cursor} (h : rel c d) (opened : c.kind = some (.opening .curly))
    (inside : Passes c.next m) (closed : m.kind = some (.closing .curly)) (hm : rel m m') :
    rel m.next m'.next ∧ Tight m.next m'.next
  digit {c d c' : Cursor} {digit : String} (h : rel c d)
    (taken : c.takeDigit? = some (digit, c')) :
    ∃ d', d.takeDigit? = some (digit, d') ∧ rel c' d' ∧ Tight c' d'
  mark {c d : Cursor} {k : Token.Kind} (h : rel c d) (here : c.kind = some k)
    (script : k = .caret ∨ k = .underscore ∨ k = .sqrt) : Scripts rel c.next d.next
  below {bare : Bool} {c d : Cursor} (h : rel c d) (hi : bare = true → inside c d)
    (here : c.kind = some .symbol) (mark : c.next.kind = some .underscore) :
    Scripts (fun c d => rel c d ∧ (bare = true → Tight c d)) c.next.next d.next.next
  fork {c d : Cursor} {k : Token.Kind} (h : rel c d) (here : c.kind = some k)
    (fraction : k = .frac ∨ k = .binom) : Forks rel c.next d.next

def Pairing.GoesOn {declared : List String} (P : Pairing declared) (bare : Bool)
    (c d : Cursor) : Prop :=
  bare = true → c.kind ≠ none →
    d.touchesPrevious = c.touchesPrevious ∧ (c.touchesPrevious = true → P.inside c d)

/-- The mode that the second text is read in: a side of a limit may be left alone
there only. -/
structure Mode.Fits (mode mode' : Mode) : Prop where
  bareArgument : mode'.bareArgument = mode.bareArgument
  insideBars : mode'.insideBars = mode.insideBars
  limitTarget : mode.limitTarget = true → mode'.limitTarget = true

namespace Mode.Fits

variable {mode mode' : Mode}

theorem refl (mode : Mode) : mode.Fits mode where
  bareArgument := rfl
  insideBars := rfl
  limitTarget := id

theorem body (h : mode.Fits mode') :
    Mode.Fits { mode with bareArgument := false } { mode' with bareArgument := false } where
  bareArgument := rfl
  insideBars := h.insideBars
  limitTarget := h.limitTarget

theorem argument (h : mode.Fits mode') :
    Mode.Fits { bareArgument := true, insideBars := mode.insideBars }
      { bareArgument := true, insideBars := mode'.insideBars } where
  bareArgument := rfl
  insideBars := h.insideBars
  limitTarget := nofun

end Mode.Fits

theorem Scripts.mono {rel rel' : Cursor → Cursor → Prop} {c d : Cursor} (h : Scripts rel c d)
    (hrel : ∀ c d, rel c d → rel' c d) : Scripts rel' c d := by
  cases h with
  | same h => exact .same (hrel c d h)
  | split taken braces after => exact .split taken braces (hrel _ _ after)
  | join braces taken after => exact .join braces taken (hrel _ _ after)

theorem Scripts.related {rel : Cursor → Cursor → Prop} {c d : Cursor} (h : Scripts rel c d)
    (number : c.kind ≠ some .number)
    (braced : c.kind = some (.opening .curly) → c.next.kind ≠ some .number) : rel c d := by
  cases h with
  | same h => exact h
  | split taken => exact absurd (Cursor.kind_of_takeDigit taken) number
  | join braces => exact absurd braces.2.1 (braced braces.1)

theorem Braces.opened {digit : String} {c c' : Cursor} (h : Braces digit c c') :
    c.kind = some (.opening .curly) := h.1

namespace Pairing

variable {declared : List String} {P : Pairing declared} {c d c' m m' : Cursor}
  {mode mode' : Mode} {k : Token.Kind} {delimiter : Delimiter} {name : String}

/-! What stands at a related cursor. -/

theorem ending_of_end (hc : P.rel c d) (last : c.kind = none) (here : d.kind = some k) :
    k.isEnding = true := by
  obtain ⟨t, rest, ht, rfl⟩ := Cursor.kind_eq_some.1 here
  rw [P.ended hc last] at ht
  exact P.ending t (by simp [ht])

theorem kind_ne (hc : P.rel c d) (hk : k.isEnding = false) (h : c.kind ≠ some k) :
    d.kind ≠ some k := by
  intro hd
  cases hck : c.kind with
  | none => simp [P.ending_of_end hc hck hd] at hk
  | some k' =>
    obtain rfl : k' = k := by simpa [P.kind hc hck] using hd
    exact h hck

theorem kind_ne_of_inner (hc : P.rel c d) (inner : c.kind ≠ none) (h : c.kind ≠ some k) :
    d.kind ≠ some k := by
  obtain ⟨k', hk'⟩ := Option.ne_none_iff_exists'.1 inner
  rw [P.kind hc hk', ← hk']
  exact h

theorem kindAt_of_end (hc : P.rel c d) (last : c.kind = none) (n : Nat) :
    d.kindAt n = (Cursor.start P.tail 0).kindAt n := by
  simp [Cursor.kindAt, P.ended hc last, Cursor.start]

theorem kind_of_end (hc : P.rel c d) (last : c.kind = none) :
    d.kind = (Cursor.start P.tail 0).kind := P.kindAt_of_end hc last 0

theorem step (hc : P.rel c d) (here : c.kind = some k) (hk : k.isStep = true) :
    P.rel c.next d.next := (P.next hc here hk).1

theorem close (hc : P.rel c d) (opened : c.kind = some (.opening delimiter))
    (inside : Passes c.next m) (closed : m.kind = some (.closing delimiter))
    (hm : P.rel m m') : P.rel m.next m'.next := by
  by_cases hd : delimiter = .curly
  · subst hd
    exact (P.enclosed hc opened inside closed hm).1
  · exact P.step hm closed (by cases delimiter <;> simp_all [Token.Kind.isStep])

theorem startsFactor (hc : P.rel c d) (bars : mode'.insideBars = mode.insideBars)
    (here : c.kind = some k) : startsFactor mode' d = startsFactor mode c := by
  simp only [Grammar.startsFactor, here, P.kind hc here, bars]

theorem startsFactor_of_end (hc : P.rel c d) (last : c.kind = none)
    (other : (Cursor.start P.tail 0).kind ≠ some .differential)
    (bars : (Cursor.start P.tail 0).kind = some .pipe → mode'.insideBars = true) :
    Grammar.startsFactor mode' d = false := by
  cases hd : d.kind with
  | none => simp [Grammar.startsFactor, hd]
  | some k =>
    have hk := P.ending_of_end hc last hd
    have here := (P.kind_of_end hc last).symm.trans hd
    have hne : k ≠ .differential := by
      rintro rfl
      exact other here
    have closes (hp : k = .pipe) : mode'.insideBars = true := bars (hp ▸ here)
    cases k <;> simp_all [Grammar.startsFactor, Token.Kind.isEnding, Token.Kind.isTrailing]

theorem startsApplication (hc : P.rel c d)
    (bars : mode'.insideBars = mode.insideBars) (here : c.kind = some k) :
    startsApplication declared mode' d = startsApplication declared mode c := by
  have opened (hk : k = .symbol) : d.kindAt 1 = some (.opening .round) ↔
      c.kindAt 1 = some (.opening .round) := by
    subst hk
    rw [← Cursor.kind_next, ← Cursor.kind_next]
    have hn := P.step hc here rfl
    exact ⟨fun h => Classical.not_not.1 fun hne => P.kind_ne hn rfl hne h, P.kind hn⟩
  simp only [Grammar.startsApplication, here, P.kind hc here, P.text hc here, bars]
  cases k with
  | symbol => simp only [opened rfl]
  | opening delimiter => cases delimiter <;> rfl
  | _ => rfl

theorem adjacency {last : Formula} (hm : mode.Fits mode')
    (hc : P.rel c d) (ht : P.GoesOn (mode.bareArgument && last.isPlain) c d)
    (here : c.kind = some k) :
    adjacency? declared last mode' d = adjacency? declared last mode c := by
  have touches (hbare : mode.bareArgument = true) (isApplication : Bool) :
      bareArgumentGoesOn last isApplication d = bareArgumentGoesOn last isApplication c := by
    unfold bareArgumentGoesOn
    rw [here, P.kind hc here]
    by_cases hl : last.isPlain = true
    · rw [(ht (by simp [hbare, hl]) (by simp [here])).1]
    · cases last <;> simp_all [Formula.isPlain]
  unfold adjacency?
  rw [P.startsFactor hc hm.insideBars here, here, P.kind hc here, hm.bareArgument,
    P.startsApplication hc hm.insideBars here]
  cases hbare : mode.bareArgument with
  | true => simp only [touches hbare]
  | false => rfl

theorem adjacency_of_end {last : Formula} (hc : P.rel c d)
    (hend : c.kind = none) (ends : TermEnds P.tail mode') :
    adjacency? declared last mode' d = none := by
  cases hd : d.kind with
  | none => simp [adjacency?, hd]
  | some k =>
    by_cases hne : k = .differential
    · subst hne
      have hbare := ends.2 ((P.kind_of_end hc hend).symm.trans hd)
      simp [adjacency?, hd, hbare]
    · have : Grammar.startsFactor mode' d = false :=
        P.startsFactor_of_end hc hend (fun h =>
          hne (Option.some.inj (hd.symm.trans ((P.kind_of_end hc hend).trans h)))) ends.1.2
      simp [adjacency?, this]

theorem sideFollows (hc : P.rel c d) (h : sideFollows c = true) :
    Grammar.sideFollows d = true := by
  have sign {c d : Cursor} (hc : P.rel c d) (hs : isSign c.kind = true)
      (closed : c.next.kind = some (.closing .curly)) :
      isSign d.kind = true ∧ d.next.kind = some (.closing .curly) := by
    cases hk : c.kind with
    | none => simp [hk, isSign] at hs
    | some k =>
      have step : k.isStep = true := by cases k <;> simp_all [isSign, Token.Kind.isStep]
      exact ⟨by rwa [P.kind hc hk, ← hk], P.kind (P.step hc hk step) closed⟩
  have second (c : Cursor) : c.kindAt 2 = c.next.next.kind := by simp [Cursor.kind]
  have third (c : Cursor) : c.kindAt 3 = c.next.next.next.kind := by simp [Cursor.kind]
  simp only [Grammar.sideFollows, Bool.and_eq_true, Bool.or_eq_true, decide_eq_true_eq,
    ← Cursor.kind_next, second, third] at h ⊢
  obtain ⟨mark, h⟩ := h
  refine ⟨P.kind hc mark, ?_⟩
  rcases h with ⟨hs, closed⟩ | ⟨⟨opened, hs⟩, closed⟩
  · have related : P.rel c.next d.next := (P.mark hc mark (.inl rfl)).related
      (by rintro hk; simp [hk, isSign] at hs) (by intro hk; simp [hk, isSign] at hs)
    exact .inl (sign related hs closed)
  · have related : P.rel c.next d.next := (P.mark hc mark (.inl rfl)).related
      (by simp [opened]) (by intro _ hk; simp [hk, isSign] at hs)
    obtain ⟨hs', closed'⟩ := sign (P.step related opened rfl) hs closed
    exact .inr ⟨⟨P.kind related opened, hs'⟩, closed'⟩

theorem sideFollows_of_end (hc : P.rel c d) (last : c.kind = none) :
    Grammar.sideFollows d = Grammar.sideFollows (Cursor.start P.tail 0) := by
  have hat := P.kindAt_of_end hc last
  unfold Grammar.sideFollows Cursor.kind
  rw [hat 0, hat 1, hat 2, hat 3]

/-! Names. -/

theorem words {ts : List Token} (hts : c.tokens = ts) (hc : P.rel c d)
    (closed : (c.skip (ts.takeWhile isWordPart).length).kind = some (.closing .curly)) :
    (d.tokens.takeWhile isWordPart).map (·.text) = (ts.takeWhile isWordPart).map (·.text) ∧
      P.rel (c.skip (ts.takeWhile isWordPart).length)
        (d.skip (ts.takeWhile isWordPart).length) := by
  induction ts generalizing c d with
  | nil =>
    have : c.kind = some (.closing .curly) := closed
    obtain ⟨t, rest, ht, -⟩ := Cursor.kind_eq_some.1 this
    simp [hts] at ht
  | cons t rest ih =>
    have here : c.kind = some t.kind := Cursor.kind_eq_some.2 ⟨t, rest, hts, rfl⟩
    obtain ⟨u, us, hus, hkind⟩ := Cursor.kind_eq_some.1 (P.kind hc here)
    have htext : u.text = t.text := by simpa [Cursor.text, hts, hus] using P.text hc here
    have hword : isWordPart u = isWordPart t := by simp [isWordPart, hkind]
    by_cases h : isWordPart t = true
    · have step : t.kind.isStep = true := by
        simp only [isWordPart, Bool.or_eq_true, decide_eq_true_eq] at h
        rcases h with hk | hk <;> simp [hk, Token.Kind.isStep]
      rw [List.takeWhile_cons_of_pos h, List.length_cons] at closed
      obtain ⟨htexts, hrest⟩ := ih (by simp [Cursor.next, hts]) (P.step hc here step) closed
      have hnext : d.next.tokens = us := Cursor.tokens_next_of_cons hus
      rw [hus, List.takeWhile_cons_of_pos h, List.takeWhile_cons_of_pos (hword.trans h)]
      rw [hnext] at htexts
      exact ⟨by simp [htext, htexts], hrest⟩
    · rw [hus, List.takeWhile_cons_of_neg h, List.takeWhile_cons_of_neg (by rwa [hword])]
      exact ⟨rfl, hc⟩

theorem subscript_of_braces {digit : String} (h : Braces digit c c')
    (nonempty : digit ≠ "") : subscript c = .ok (digit, c') := by
  obtain ⟨opened, number, rfl, closed, rfl⟩ := h
  obtain ⟨t, rest, ht, hk⟩ := Cursor.kind_eq_some.1 number
  obtain ⟨u, us, hu, hku⟩ := Cursor.kind_eq_some.1 closed
  have hrest : c.next.next.tokens = rest := Cursor.tokens_next_of_cons ht
  obtain rfl : rest = u :: us := hrest.symm.trans hu
  have words : c.next.tokens.takeWhile isWordPart = [t] := by
    simp [ht, isWordPart, hk, hku]
  have text : c.next.text = t.text := by simp [Cursor.text, ht]
  exact subscript_eq_ok.2 (.braced opened words.symm (by simp [text, String.join]) nonempty rfl
    (by simpa using closed))

theorem ne_empty_of_takeDigit {digit : String} (h : c.takeDigit? = some (digit, c')) :
    digit ≠ "" := by
  cases Cursor.takeDigit_eq_some.1 h with
  | last | more => simp [Char.toString]

theorem subscript {bare : Bool}
    (hc : Scripts (fun c d => P.rel c d ∧ (bare = true → Tight c d)) c d)
    (h : subscript c = .ok (name, c')) :
    ∃ d', Grammar.subscript d = .ok (name, d') ∧ P.rel c' d' ∧ (bare = true → Tight c' d') := by
  cases hc with
  | same hc =>
    obtain ⟨hc, -⟩ := hc
    cases subscript_eq_ok.1 h with
    | @braced run _ after opened words joined nonempty stop closed =>
      subst words joined stop
      obtain ⟨texts, hm⟩ := P.words rfl (P.step hc opened rfl) closed
      have length : (d.next.tokens.takeWhile isWordPart).length =
          (c.next.tokens.takeWhile isWordPart).length := by
        simpa using congrArg List.length texts
      obtain ⟨hr, ht⟩ := P.enclosed hc opened (.skip_words _) closed hm
      refine ⟨_, subscript_eq_ok.2 (.braced (P.kind hc opened) rfl (by rw [texts]) nonempty
        (by rw [length]) (P.kind hm closed)), hr, fun _ => ht⟩
    | digit taken =>
      obtain ⟨d', hd, hr, ht⟩ := P.digit hc taken
      exact ⟨d', subscript_eq_ok.2 (.digit hd), hr, fun _ => ht⟩
    | symbol here =>
      obtain ⟨hr, ht⟩ := P.next hc here rfl
      have step := SubscriptStep.symbol (P.kind hc here)
      rw [P.text hc here] at step
      exact ⟨_, subscript_eq_ok.2 step, hr, fun _ => ht⟩
  | @split digit _ _ _ d' taken braces after =>
    have hone : Grammar.subscript c = .ok (digit, _) := subscript_eq_ok.2 (.digit taken)
    obtain ⟨rfl, rfl⟩ : digit = name ∧ _ = c' := by simpa [hone] using h
    exact ⟨d', subscript_of_braces braces (ne_empty_of_takeDigit taken), after⟩
  | @join digit _ _ _ d' braces taken after =>
    have hone := subscript_of_braces braces (ne_empty_of_takeDigit taken)
    obtain ⟨rfl, rfl⟩ : digit = name ∧ _ = c' := by simpa [hone] using h
    exact ⟨d', subscript_eq_ok.2 (.digit taken), after⟩

theorem tight_symbolName {bare : Bool} (hc : P.rel c d) (hi : bare = true → P.inside c d)
    (h : symbolName c = .ok (name, c')) :
    ∃ d', Grammar.symbolName d = .ok (name, d') ∧ P.rel c' d' ∧ (bare = true → Tight c' d') := by
  cases symbolName_eq_ok.1 h with
  | plain here last =>
    obtain ⟨hr, ht⟩ := P.next hc here rfl
    have step := SymbolNameStep.plain (P.kind hc here) (P.kind_ne hr rfl last)
    rw [P.text hc here] at step
    exact ⟨_, symbolName_eq_ok.2 step, hr, fun _ => ht⟩
  | subscripted here mark below =>
    obtain ⟨d', hd, hr⟩ := P.subscript (P.below hc hi here mark) (subscript_eq_ok.2 below)
    have step := SymbolNameStep.subscripted (P.kind hc here)
      (P.kind (P.step hc here rfl) mark) (subscript_eq_ok.1 hd)
    rw [P.text hc here] at step
    exact ⟨d', symbolName_eq_ok.2 step, hr⟩

theorem symbolName (hc : P.rel c d) (h : symbolName c = .ok (name, c')) :
    ∃ d', Grammar.symbolName d = .ok (name, d') ∧ P.rel c' d' := by
  have loose : false = true → P.inside c d := nofun
  obtain ⟨d', hd, hr, -⟩ := P.tight_symbolName hc loose h
  exact ⟨d', hd, hr⟩

/-! Arguments without brackets. -/

theorem goesOn_of_plain {d' : Cursor} {bare : Bool} (hi : bare = true → P.inside c d)
    (first : PlainFactor c c') (first' : PlainFactor d d') (ht : bare = true → Tight c' d') :
    P.GoesOn bare c' d' := fun hb inner =>
  ⟨ht hb inner, fun touch => P.flush (hi hb) first first' touch ((ht hb inner).trans touch)⟩

theorem GoesOn.loose (c d : Cursor) : P.GoesOn false c d := nofun

theorem GoesOn.behind {bare : Bool} {x : Formula}
    (h : x.lastFactor.isPlain = true → P.GoesOn bare c d) :
    P.GoesOn (bare && x.lastFactor.isPlain) c d := by
  intro hb
  rw [Bool.and_eq_true] at hb
  exact h hb.2 hb.1

theorem inside_of_adjacency {last : Formula} {shape : Adjacency}
    (ht : P.GoesOn (mode.bareArgument && last.isPlain) c d)
    (h : adjacency? declared last mode c = some shape) (bare : mode.bareArgument = true) :
    P.inside c d := by
  cases hk : c.kind with
  | none => simp [adjacency?, hk] at h
  | some k =>
    obtain ⟨plain, flush⟩ : last.isPlain = true ∧ c.touchesPrevious = true := by
      unfold adjacency? bareArgumentGoesOn at h
      cases k <;> cases last <;> simp_all [Formula.isPlain]
    exact (ht (by simp [bare, plain]) (by simp [hk])).2 flush

end Pairing

end Grammar

end AnswerKey

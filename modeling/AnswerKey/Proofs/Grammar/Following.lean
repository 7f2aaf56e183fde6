import AnswerKey.Proofs.Grammar.Neighbours
import AnswerKey.Proofs.Grammar.Pairing

/-! Readings at related cursors. What the rules read from the first text, the
full rules read from the second one too, up to the place in front of its tail. -/
namespace AnswerKey.Grammar

open Cursor (Passes)
open Rules (full)

namespace Pairing

variable {declared : List String} {P : Pairing declared} {c c' : Cursor} {k : Token.Kind}

/-- What `a` reads `a'` reads too, up to a related cursor. At the end the tail has
to leave it alone. -/
def Tracks (P : Pairing declared) (ends : Prop) (bare : Bool)
    (a a' : Attempt (Formula × Cursor)) : Prop :=
  ∀ x c', a = .ok (x, c') → (c'.kind = none → ends ∧ Closes P.tail x) →
    ∃ d', a' = .ok (x, d') ∧ P.rel c' d' ∧ P.GoesOn (bare && x.lastFactor.isPlain) c' d'

theorem Tracks.inner {ends : Prop} {bare : Bool} {a a' : Attempt (Formula × Cursor)} {x : Formula}
    (h : P.Tracks ends bare a a') (hx : a = .ok (x, c')) (here : c'.kind = some k) :
    ∃ d', a' = .ok (x, d') ∧ P.rel c' d' := by
  obtain ⟨d', ha, hr, -⟩ := h x c' hx (by simp [here])
  exact ⟨d', ha, hr⟩

theorem Tracks.last {ends : Prop} {bare : Bool} {a a' : Attempt (Formula × Cursor)} {x : Formula}
    (h : P.Tracks ends bare a a') (hx : a = .ok (x, c'))
    (hends : c'.kind = none → ends ∧ Closes P.tail x) :
    ∃ d', a' = .ok (x, d') ∧ P.rel c' d' := by
  obtain ⟨d', ha, hr, -⟩ := h x c' hx hends
  exact ⟨d', ha, hr⟩

theorem Tracks.loose {ends : Prop} {bare : Bool} {a a' : Attempt (Formula × Cursor)}
    (h : P.Tracks ends bare a a') : P.Tracks ends false a a' := by
  intro x c' hx hends
  obtain ⟨d', ha, hr⟩ := h.last hx hends
  exact ⟨d', ha, hr, .loose c' d'⟩

end Pairing

variable {declared : List String} {P : Pairing declared}

/-- The full rules read the second text as `g` reads the first one. -/
structure Rules.Follow (P : Pairing declared) (g : Rules) : Prop where
  sound : g.Sound
  starts : g.Starts
  names : g.declared = declared
  argument {f : Builtin} {c middle first : Cursor} {base : Option Formula}
    {r : Builtin × Option Formula} (below : logBase g f c = .ok (base, middle))
    (above : functionExponent g f middle = .ok (r, first)) : ArgumentFrom declared f c first
  takesAll {insideBars : Bool} {c c' : Cursor} {x : Formula}
    (unopened : ∀ e ∈ aroundArguments, c.kind ≠ some (.opening e))
    (h : g.signedTerm { bareArgument := true, insideBars } c = .ok (x, c'))
    (last : c'.kind = none) : TakesAll declared c
  sum {mode mode' : Mode} {c d : Cursor} (hm : mode.Fits mode') (free : mode.bareArgument = false)
    (hc : P.rel c d) :
    P.Tracks (SumEnds P.tail mode') false (g.sum mode c) ((full declared).sum mode' d)
  sumTail {mode mode' : Mode} {left : Formula} {c d : Cursor} (hm : mode.Fits mode')
    (free : mode.bareArgument = false) (hc : P.rel c d) :
    P.Tracks (SumEnds P.tail mode') false (g.sumTail mode left c)
      ((full declared).sumTail mode' left d)
  signedTerm {mode mode' : Mode} {c d : Cursor} (hm : mode.Fits mode')
    (hs : mode.bareArgument = true → P.starts c d) (hc : P.rel c d) :
    P.Tracks (TermEnds P.tail mode') false (g.signedTerm mode c)
      ((full declared).signedTerm mode' d)
  termTail {mode mode' : Mode} {left : Formula} {c d : Cursor} (hm : mode.Fits mode')
    (hc : P.rel c d) (ht : P.GoesOn (mode.bareArgument && left.lastFactor.isPlain) c d) :
    P.Tracks (TermEnds P.tail mode') false (g.termTail mode left c)
      ((full declared).termTail mode' left d)
  signedFactor {mode mode' : Mode} {c d : Cursor} (hm : mode.Fits mode')
    (hs : mode.bareArgument = true → P.starts c d) (hc : P.rel c d) :
    P.Tracks (FactorEnds P.tail mode') false (g.signedFactor mode c)
      ((full declared).signedFactor mode' d)
  factorTail {mode mode' : Mode} {base : Formula} {c d : Cursor} (hm : mode.Fits mode')
    (hc : P.rel c d) (ht : P.GoesOn (mode.bareArgument && base.lastFactor.isPlain) c d) :
    P.Tracks (FactorEnds P.tail mode') mode.bareArgument (g.factorTail mode base c)
      ((full declared).factorTail mode' base d)
  exponent {c d c' : Cursor} {e : Exponent} (hc : Scripts P.rel c d)
    (h : g.exponent c = .ok (e, c')) :
    ∃ d', (full declared).exponent d = .ok (e, d') ∧ P.rel c' d'
  arguments {delimiter : Delimiter} {c d c' : Cursor} {xs : List Formula}
    (hc : P.rel c d) (h : g.arguments delimiter c = .ok (xs, c')) :
    ∃ m m', Passes c m ∧ m.kind = some (.closing delimiter) ∧ m.next = c' ∧ P.rel m m' ∧
      (full declared).arguments delimiter d = .ok (xs, m'.next)

namespace Rules.Follow

variable {g : Rules} {c d c' : Cursor} {mode mode' : Mode} {f : Builtin} {x : Formula}
  {delimiter : Delimiter} {k : Token.Kind}

theorem ofBracketed (hf : g.Follow P) (hc : P.rel c d)
    (h : bracketed g delimiter c = .ok (x, c')) :
    ∃ m m', Passes c m ∧ m.kind = some (.closing delimiter) ∧ m.next = c' ∧ P.rel m m' ∧
      bracketed (full declared) delimiter d = .ok (x, m'.next) := by
  obtain ⟨m, hs, closed, rfl⟩ := bracketed_eq_ok.1 h
  obtain ⟨m', hs', hr⟩ := (hf.sum (.refl _) rfl hc).inner hs closed
  exact ⟨m, m', (hf.sound.sum hs).2, closed, rfl, hr,
    bracketed_eq_ok.2 ⟨m', hs', P.kind hr closed, rfl⟩⟩

theorem ofEnclosed (hf : g.Follow P) (hc : P.rel c d)
    (opened : c.kind = some (.opening delimiter))
    (h : bracketed g delimiter c.next = .ok (x, c')) :
    ∃ d', bracketed (full declared) delimiter d.next = .ok (x, d') ∧ P.rel c' d' := by
  obtain ⟨m, m', inside, closed, rfl, hr, hd⟩ := hf.ofBracketed (P.step hc opened rfl) h
  exact ⟨_, hd, P.close hc opened inside closed hr⟩

theorem ofGroup (hf : g.Follow P) (hc : P.rel c d)
    (opened : c.kind = some (.opening delimiter)) (h : group g delimiter c = .ok (x, c')) :
    ∃ d', group (full declared) delimiter d = .ok (x, d') ∧ P.rel c' d' := by
  obtain ⟨inner, hi, rfl⟩ := group_eq_ok.1 h
  obtain ⟨d', hd, hr⟩ := hf.ofEnclosed hc opened hi
  exact ⟨d', group_eq_ok.2 ⟨inner, hd, rfl⟩, hr⟩

theorem ofArguments (hf : g.Follow P) (hc : P.rel c d) {xs : List Formula}
    (opened : c.kind = some (.opening delimiter))
    (h : g.arguments delimiter c.next = .ok (xs, c')) :
    ∃ d', (full declared).arguments delimiter d.next = .ok (xs, d') ∧ P.rel c' d' := by
  obtain ⟨m, m', inside, closed, rfl, hr, hd⟩ := hf.arguments (P.step hc opened rfl) h
  exact ⟨_, hd, P.close hc opened inside closed hr⟩

theorem ofSymbolOrCall (hf : g.Follow P) {bare : Bool} (hc : P.rel c d)
    (hi : bare = true → P.inside c d) (h : symbolOrCall g c = .ok (x, c')) :
    ∃ d', symbolOrCall (full declared) d = .ok (x, d') ∧ P.rel c' d' ∧
      P.GoesOn (bare && x.lastFactor.isPlain) c' d' := by
  cases symbolOrCall_eq_ok.1 h with
  | @call name args _ _ named opened allowed inside =>
    obtain ⟨m, hm, hr⟩ := P.symbolName hc named
    obtain ⟨d', hd, hr'⟩ := hf.ofArguments hr opened inside
    rw [hf.names] at allowed
    exact ⟨d', symbolOrCall_eq_ok.2 (.call hm (P.kind hr opened) allowed hd), hr', .behind nofun⟩
  | symbol named other =>
    obtain ⟨m, hm, hr, ht⟩ := P.tight_symbolName hc hi named
    rw [hf.names] at other
    refine ⟨m, symbolOrCall_eq_ok.2 (.symbol hm ?_), hr,
      .behind fun _ => P.goesOn_of_plain hi (.name named) (.name hm) ht⟩
    rintro ⟨opened, allowed⟩
    exact P.kind_ne hr rfl (fun hk => other ⟨hk, allowed⟩) opened

theorem ofBraces {digit : String} (h : Braces digit c c') :
    bracketed (full declared) .curly c.next = .ok (.number digit, c') := by
  obtain ⟨-, number, rfl, closed, rfl⟩ := h
  exact bracketed_eq_ok.2 ⟨_, sum_number_full number closed, closed, rfl⟩

theorem number_of_braces (hg : g.Starts) {digit : String} {after : Cursor}
    (h : Braces digit c after) (hx : bracketed g .curly c.next = .ok (x, c')) :
    .number digit = x ∧ after = c' := by
  obtain ⟨-, number, rfl, closed, rfl⟩ := h
  obtain ⟨m, hs, -, rfl⟩ := bracketed_eq_ok.1 hx
  obtain ⟨rfl, rfl⟩ := hg.sum_number number closed hs
  exact ⟨rfl, rfl⟩

theorem noMarker (h : bracketed (full declared) .curly c.next = .ok (x, c')) :
    bracedMarker? c = none := by
  obtain ⟨m, hs, -⟩ := bracketed_eq_ok.1 h
  have starts := (starts_full declared).sum hs
  cases hm : bracedMarker? c with
  | none => rfl
  | some e =>
    obtain ⟨-, inside⟩ := bracedMarker_eq_some.1 hm
    rw [← Cursor.kind_next] at inside
    have unstarted {k : Token.Kind} (hsign : isSign (some k) = false)
        (hk : ∀ c : Cursor, c.kind = some k → startsFactor .plain c = false) :
        c.next.kind ≠ some k := starts.kind_ne hsign hk
    rcases inside with ⟨here | here, -⟩ | ⟨here, -⟩
    · exact absurd here (unstarted rfl fun c hc => by simp [startsFactor, hc])
    · exact absurd here (unstarted rfl fun c hc => by simp [startsFactor, hc])
    · exact absurd here (unstarted rfl fun c hc => by simp [startsFactor, hc])

theorem ofOperand (hf : g.Follow P) {allowSymbol : Bool} (hc : Scripts P.rel c d)
    (h : operand g allowSymbol c = .ok (x, c')) :
    ∃ d', operand (full declared) allowSymbol d = .ok (x, d') ∧ P.rel c' d' := by
  cases hc with
  | same hc =>
    cases operand_eq_ok.1 h with
    | braced opened inside =>
      obtain ⟨d', hd, hr⟩ := hf.ofEnclosed hc opened inside
      exact ⟨d', operand_eq_ok.2 (.braced (P.kind hc opened) hd), hr⟩
    | digit taken =>
      obtain ⟨d', hd, hr, -⟩ := P.digit hc taken
      exact ⟨d', operand_eq_ok.2 (.digit hd), hr⟩
    | symbol allowed here =>
      have step : OperandStep (full declared) allowSymbol d (.symbol d.text) d.next :=
        .symbol allowed (P.kind hc here)
      rw [P.text hc here] at step
      exact ⟨_, operand_eq_ok.2 step, P.step hc here rfl⟩
    | infinity allowed here =>
      exact ⟨_, operand_eq_ok.2 (.infinity allowed (P.kind hc here)), P.step hc here rfl⟩
  | @split digit _ _ after d' taken braces related =>
    have hone : operand g allowSymbol c = .ok (.number digit, after) :=
      operand_eq_ok.2 (.digit taken)
    obtain ⟨rfl, rfl⟩ : .number digit = x ∧ after = c' := by simpa [hone] using h
    exact ⟨d', operand_eq_ok.2 (.braced braces.opened (ofBraces braces)), related⟩
  | @join digit _ _ after d' braces taken related =>
    cases operand_eq_ok.1 h with
    | braced opened inside =>
      obtain ⟨rfl, rfl⟩ := number_of_braces hf.starts braces inside
      exact ⟨d', operand_eq_ok.2 (.digit taken), related⟩
    | digit other => exact absurd (Cursor.kind_of_takeDigit other) (by simp [braces.opened])
    | symbol _ here | infinity _ here => simp [braces.opened] at here

theorem ofLogBase (hf : g.Follow P) (hc : P.rel c d) {base : Option Formula}
    (h : logBase g f c = .ok (base, c')) :
    ∃ d', logBase (full declared) f d = .ok (base, d') ∧ P.rel c' d' := by
  cases logBase_eq_ok.1 h with
  | written log mark below =>
    obtain ⟨d', hd, hr⟩ := hf.ofOperand (P.mark hc mark (.inr (.inl rfl))) below
    exact ⟨d', logBase_eq_ok.2 (.written log (P.kind hc mark) hd), hr⟩
  | absent other =>
    refine ⟨d, logBase_eq_ok.2 (.absent ?_), hc⟩
    rintro ⟨log, mark⟩
    exact P.kind_ne hc rfl (fun hk => other ⟨log, hk⟩) mark

theorem ofFunctionExponent (hf : g.Follow P) (hc : P.rel c d) (inner : c.kind ≠ none)
    {r : Builtin × Option Formula} (h : functionExponent g f c = .ok (r, c')) :
    ∃ d', functionExponent (full declared) f d = .ok (r, d') ∧ P.rel c' d' := by
  cases functionExponent_eq_ok.1 h with
  | written mark above =>
    obtain ⟨d', hd, hr⟩ := hf.exponent (P.mark hc mark (.inl rfl)) above
    exact ⟨d', functionExponent_eq_ok.2 (.written (P.kind hc mark) hd), hr⟩
  | absent other =>
    exact ⟨d, functionExponent_eq_ok.2 (.absent (P.kind_ne_of_inner hc inner other)), hc⟩

theorem inner_of_functionExponent {r : Builtin × Option Formula}
    (h : functionExponent g f c = .ok (r, c')) (inner : c'.kind ≠ none) : c.kind ≠ none := by
  cases functionExponent_eq_ok.1 h with
  | written mark => simp [mark]
  | absent => exact inner

theorem kind_of_operand {allowSymbol : Bool} (h : operand g allowSymbol c = .ok (x, c')) :
    c.kind ≠ none := by
  cases operand_eq_ok.1 h with
  | braced here | symbol _ here | infinity _ here => simp [here]
  | digit taken => simp [Cursor.kind_of_takeDigit taken]

theorem kind_of_functionArguments (hg : g.Starts) {r : List Formula × Bool}
    (h : functionArguments g f mode c = .ok (r, c')) : c.kind ≠ none := by
  cases functionArguments_eq_ok.1 h with
  | pair _ left => exact kind_of_operand left
  | delimited _ _ opened => simp [opened]
  | bare _ _ _ follows => exact (hg.signedTerm follows).kind_ne_none

theorem ofFunctionArguments (hf : g.Follow P) (hm : mode.Fits mode') (hs : P.starts c d)
    (hc : P.rel c d) {args : List Formula} {delimited : Bool}
    (h : functionArguments g f mode c = .ok ((args, delimited), c'))
    (hends : ∀ y, args = [y] → delimited = false → c'.kind = none → TakesAll declared c →
      TermEnds P.tail { bareArgument := true, insideBars := mode'.insideBars } ∧ Closes P.tail y) :
    ∃ d', functionArguments (full declared) f mode' d = .ok ((args, delimited), d') ∧
      P.rel c' d' := by
  have inner := kind_of_functionArguments hf.starts h
  cases functionArguments_eq_ok.1 h with
  | pair innerProduct left right =>
    obtain ⟨m, hm, hr⟩ := hf.ofOperand (.same hc) left
    obtain ⟨d', hd, hr⟩ := hf.ofOperand (.same hr) right
    exact ⟨d', functionArguments_eq_ok.2 (.pair innerProduct hm hd), hr⟩
  | delimited other around opened inside =>
    obtain ⟨d', hd, hr⟩ := hf.ofArguments hc opened inside
    exact ⟨d', functionArguments_eq_ok.2 (.delimited other around (P.kind hc opened) hd), hr⟩
  | @bare y _ other unopened takes follows =>
    obtain ⟨d', hd, hr⟩ := (hf.signedTerm hm.argument (fun _ => hs) hc).last follows
      fun hend => hends y rfl rfl hend (hf.takesAll unopened follows hend)
    exact ⟨d', functionArguments_eq_ok.2
      (.bare other (fun e he => P.kind_ne_of_inner hc inner (unopened e he)) takes hd), hr⟩

theorem ofApplication (hf : g.Follow P) (hm : mode.Fits mode') (hc : P.rel c d)
    (here : c.kind = some (.function f)) (h : application g f mode c.next = .ok (x, c'))
    (hends : c'.kind = none → FactorEnds P.tail mode' ∧ Closes P.tail x) :
    ∃ d', application (full declared) f mode' d.next = .ok (x, d') ∧ P.rel c' d' := by
  obtain ⟨base, c₁, f', power, c₂, args, delimited, below, above, ha, rfl⟩ :=
    application_eq_ok.1 h
  have inner₁ := inner_of_functionExponent above (kind_of_functionArguments hf.starts ha)
  obtain ⟨d₁, below', h₁⟩ := hf.ofLogBase (P.step hc here rfl) below
  obtain ⟨d₂, above', h₂⟩ := hf.ofFunctionExponent h₁ inner₁ above
  have argument := hf.argument below above
  have hs := P.word hc here argument (argumentFrom_full below' above')
  have ends (y : Formula) (hy : args = [y]) (hd : delimited = false) (hend : c'.kind = none)
      (all : TakesAll declared c₂) :
      TermEnds P.tail { bareArgument := true, insideBars := mode'.insideBars } ∧
        Closes P.tail y := by
    subst hy hd
    obtain ⟨factor, hx⟩ := hends hend
    refine ⟨.ofBareArgument factor (P.free hc here argument all), ?_⟩
    cases power with
    | none => exact hx.last rfl
    | some e => exact hx.last rfl
  obtain ⟨d', ha, hr⟩ := hf.ofFunctionArguments hm hs h₂ ha ends
  exact ⟨d', application_eq_ok.2
    ⟨base, d₁, f', power, d₂, args, delimited, below', above', ha, rfl⟩, hr⟩

/-- Where an operand stands there is no token of another kind on either side, whether
or not the operand is a digit that braces are put around. -/
theorem kind_ne_of_operand {allowSymbol : Bool} {k : Token.Kind} (hc : Scripts P.rel c d)
    (here : operand g allowSymbol c = .ok (x, c')) (other : c.kind ≠ some k)
    (apart : (k != .opening .curly && k != .number) = true) : d.kind ≠ some k := by
  simp only [Bool.and_eq_true, bne_iff_ne] at apart
  cases hc with
  | same hc => exact P.kind_ne_of_inner hc (kind_of_operand here) other
  | split _ braces => simpa [braces.opened] using apart.1.symm
  | join _ taken => simpa [Cursor.kind_of_takeDigit taken] using apart.2.symm

theorem ofRoot (hf : g.Follow P) (hc : Scripts P.rel c d)
    (h : root g c = .ok (x, c')) :
    ∃ d', root (full declared) d = .ok (x, d') ∧ P.rel c' d' := by
  cases root_eq_ok.1 h with
  | indexed opened inside under =>
    have hc := hc.related (by simp [opened]) (by simp [opened])
    obtain ⟨m, hm, hr⟩ := hf.ofEnclosed hc opened inside
    obtain ⟨d', hd, hr⟩ := hf.ofOperand (.same hr) under
    exact ⟨d', root_eq_ok.2 (.indexed (P.kind hc opened) hm hd), hr⟩
  | plain other under =>
    obtain ⟨d', hd, hr⟩ := hf.ofOperand hc under
    exact ⟨d', root_eq_ok.2 (.plain (kind_ne_of_operand hc under other rfl) hd), hr⟩

theorem ofOperands (hf : g.Follow P) (hc : Forks P.rel c d) {m : Cursor}
    {top bottom : Formula} (ht : operand g false c = .ok (top, m))
    (hb : operand g true m = .ok (bottom, c')) :
    ∃ m' d', operand (full declared) false d = .ok (top, m') ∧
      operand (full declared) true m' = .ok (bottom, d') ∧ P.rel c' d' := by
  cases hc with
  | first hc =>
    obtain ⟨m', hm, hr⟩ := hf.ofOperand hc ht
    obtain ⟨d', hd, hr⟩ := hf.ofOperand (.same hr) hb
    exact ⟨m', d', hm, hd, hr⟩
  | @afterDigit digit _ _ after m' taken taken' hr =>
    have hone : operand g false c = .ok (.number digit, after) := operand_eq_ok.2 (.digit taken)
    obtain ⟨rfl, rfl⟩ : .number digit = top ∧ after = m := by simpa [hone] using ht
    obtain ⟨d', hd, hr⟩ := hf.ofOperand hr hb
    exact ⟨m', d', operand_eq_ok.2 (.digit taken'), hd, hr⟩
  | afterBraces opened opened' inside closed =>
    cases operand_eq_ok.1 ht with
    | braced _ read =>
      obtain ⟨last, last', passes, close, rfl, hl, hd⟩ := hf.ofBracketed inside read
      obtain ⟨d', hd', hr⟩ := hf.ofOperand (closed last last' passes close hl) hb
      exact ⟨_, d', operand_eq_ok.2 (.braced opened' hd), hd', hr⟩
    | digit taken => exact absurd (Cursor.kind_of_takeDigit taken) (by simp [opened])
    | symbol allowed | infinity allowed => cases allowed

theorem ofFraction (hf : g.Follow P) (hc : Forks P.rel c d)
    (h : fraction g c = .ok (x, c')) :
    ∃ d', fraction (full declared) d = .ok (x, d') ∧ P.rel c' d' := by
  obtain ⟨top, middle, bottom, ht, hb, rfl⟩ := fraction_eq_ok.1 h
  obtain ⟨m, d', ht, hb, hr⟩ := hf.ofOperands hc ht hb
  exact ⟨d', fraction_eq_ok.2 ⟨top, m, bottom, ht, hb, rfl⟩, hr⟩

theorem ofBinomial (hf : g.Follow P) (hc : Forks P.rel c d)
    (h : binomial g c = .ok (x, c')) :
    ∃ d', binomial (full declared) d = .ok (x, d') ∧ P.rel c' d' := by
  obtain ⟨top, middle, bottom, ht, hb, rfl⟩ := binomial_eq_ok.1 h
  obtain ⟨m, d', ht, hb, hr⟩ := hf.ofOperands hc ht hb
  exact ⟨d', binomial_eq_ok.2 ⟨top, m, bottom, ht, hb, rfl⟩, hr⟩

theorem ofBars (hf : g.Follow P) (hc : P.rel c d) (h : bars g c = .ok (x, c')) :
    ∃ d', bars (full declared) d = .ok (x, d') ∧ P.rel c' d' := by
  cases bars_eq_ok.1 h with
  | absolute inside closed =>
    obtain ⟨m, hm, hr⟩ := (hf.sum (.refl _) rfl hc).inner inside closed
    exact ⟨_, bars_eq_ok.2 (.absolute hm (P.kind hr closed)), P.step hr closed rfl⟩
  | ket inside closed =>
    obtain ⟨m, hm, hr⟩ := (hf.sum (.refl _) rfl hc).inner inside closed
    exact ⟨_, bars_eq_ok.2 (.ket hm (P.kind hr closed)), P.step hr closed rfl⟩

theorem ofAngle (hf : g.Follow P) (hc : P.rel c d) (h : angle g c = .ok (x, c'))
    (hends : c'.kind = none → Closes P.tail x) :
    ∃ d', angle (full declared) d = .ok (x, d') ∧ P.rel c' d' := by
  cases angle_eq_ok.1 h with
  | innerProduct left bar more right closed =>
    obtain ⟨m, hm, hr⟩ := (hf.sum (.refl _) rfl hc).inner left bar
    have behind := P.step hr bar rfl
    obtain ⟨n, hn, hr'⟩ := (hf.sum (.refl _) rfl behind).inner right closed
    obtain ⟨k, hk⟩ := Option.ne_none_iff_exists'.1 (hf.starts.sum right).kind_ne_none
    rw [← P.startsFactor behind rfl hk] at more
    exact ⟨_, angle_eq_ok.2 (.innerProduct hm (P.kind hr bar) more hn (P.kind hr' closed)),
      P.step hr' closed rfl⟩
  | @bra _ middle left bar last =>
    obtain ⟨m, hm, hr⟩ := (hf.sum (.refl _) rfl hc).inner left bar
    have behind := P.step hr bar rfl
    have last' : startsFactor .bars m.next = false := by
      cases hk : middle.next.kind with
      | none => exact P.startsFactor_of_end behind hk (hends hk _ .whole rfl) fun _ => rfl
      | some k => rwa [P.startsFactor behind rfl hk]
    exact ⟨_, angle_eq_ok.2 (.bra hm (P.kind hr bar) last'), behind⟩

theorem ofDifferential {isPartial : Bool} (hc : P.rel c d)
    (h : differential isPartial c = .ok (x, c')) :
    ∃ d', differential isPartial d = .ok (x, d') ∧ P.rel c' d' := by
  cases differential_eq_ok.1 h with
  | named written =>
    obtain ⟨d', hd, hr⟩ := P.symbolName hc written
    exact ⟨d', differential_eq_ok.2 (.named hd), hr⟩
  | bare other => exact ⟨d, differential_eq_ok.2 (.bare (P.kind_ne hc rfl other)), hc⟩

theorem ofIndexBinding (hf : g.Follow P) (hc : P.rel c d) {r : String × Formula}
    (h : indexBinding g c = .ok (r, c')) :
    ∃ d', indexBinding (full declared) d = .ok (r, d') ∧ P.rel c' d' := by
  obtain ⟨opened, name, after, lower, named, equal, inside, rfl⟩ := indexBinding_eq_ok.1 h
  obtain ⟨m, hm, hr⟩ := P.symbolName (P.step hc opened rfl) named
  obtain ⟨last, last', passes, closed, rfl, hl, hd⟩ := hf.ofBracketed (P.step hr equal rfl) inside
  have within : Passes c.next last := (passes_of_symbolName named).trans (.step equal rfl passes)
  exact ⟨_, indexBinding_eq_ok.2 ⟨P.kind hc opened, name, m, lower, hm, P.kind hr equal, hd, rfl⟩,
    P.close hc opened within closed hl⟩

theorem ofBound {α β : Type} {lower lower' : Cursor → Attempt (α × Cursor)}
    {upper upper' : Cursor → Attempt (β × Cursor)} {bounds r : Option α × Option β}
    (hl : ∀ {c d a c'}, Scripts P.rel c d → lower c = .ok (a, c') →
      ∃ d', lower' d = .ok (a, d') ∧ P.rel c' d')
    (hu : ∀ {c d a c'}, Scripts P.rel c d → upper c = .ok (a, c') →
      ∃ d', upper' d = .ok (a, d') ∧ P.rel c' d')
    (hc : P.rel c d) (inner : c.kind ≠ none)
    (hs : BoundStep (fun c a after => lower c = .ok (a, after))
      (fun c b after => upper c = .ok (b, after)) c bounds r c') :
    ∃ d', BoundStep (fun c a after => lower' c = .ok (a, after))
      (fun c b after => upper' c = .ok (b, after)) d bounds r d' ∧ P.rel c' d' := by
  cases hs with
  | lower mark below =>
    obtain ⟨d', hd, hr⟩ := hl (P.mark hc mark (.inr (.inl rfl))) below
    exact ⟨d', .lower (P.kind hc mark) hd, hr⟩
  | upper mark above =>
    obtain ⟨d', hd, hr⟩ := hu (P.mark hc mark (.inl rfl)) above
    exact ⟨d', .upper (P.kind hc mark) hd, hr⟩
  | absent noLower noUpper =>
    obtain ⟨k, hk⟩ := Option.ne_none_iff_exists'.1 inner
    have same : d.kind = c.kind := by rw [hk, P.kind hc hk]
    exact ⟨d, .absent (fun h => noLower (same ▸ h)) fun h => noUpper (same ▸ h), hc⟩

theorem inner_of_bound {α β : Type} {lower : Cursor → α → Cursor → Prop}
    {upper : Cursor → β → Cursor → Prop} {bounds r : Option α × Option β}
    (hs : BoundStep lower upper c bounds r c') (inner : c'.kind ≠ none) : c.kind ≠ none := by
  cases hs with
  | lower mark | upper mark => simp [mark]
  | absent => exact inner

theorem ofAggregate (hf : g.Follow P) {kind : Aggregate} (hm : mode.Fits mode')
    (hc : P.rel c d) (h : aggregate g kind mode c = .ok (x, c'))
    (hends : c'.kind = none → FactorEnds P.tail mode' ∧ Closes P.tail x) :
    ∃ d', aggregate (full declared) kind mode' d = .ok (x, d') ∧ P.rel c' d' := by
  have binding {c d a c'} (hc : Scripts P.rel c d) (h : indexBinding g c = .ok (a, c')) :
      ∃ d', indexBinding (full declared) d = .ok (a, d') ∧ P.rel c' d' := by
    obtain ⟨opened, name, after, lower, named, -⟩ := indexBinding_eq_ok.1 h
    exact hf.ofIndexBinding
      (hc.related (by simp [opened]) fun _ => by simp [kind_of_symbolName named]) h
  obtain ⟨bounds, c₁, name, lower, upper, c₂, body, h₁, h₂, hb, rfl⟩ := aggregate_eq_ok.1 h
  have step₁ := aggregateBound_eq_ok.1 h₁
  have step₂ := aggregateBound_eq_ok.1 h₂
  have inner₁ := inner_of_bound step₂ (hf.starts.signedTerm hb).kind_ne_none
  obtain ⟨d₁, h₁, hr₁⟩ := ofBound binding hf.ofOperand hc (inner_of_bound step₁ inner₁) step₁
  obtain ⟨d₂, h₂, hr₂⟩ := ofBound binding hf.ofOperand hr₁ inner₁ step₂
  obtain ⟨d', hb, hr⟩ := (hf.signedTerm hm.body nofun hr₂).last hb fun hend =>
    ⟨.ofBody (hends hend).1 (hends hend).2 rfl, (hends hend).2.last rfl⟩
  exact ⟨d', aggregate_eq_ok.2 ⟨bounds, d₁, name, lower, upper, d₂, body,
    aggregateBound_eq_ok.2 h₁, aggregateBound_eq_ok.2 h₂, hb, rfl⟩, hr⟩

theorem ofIntegralLimit (hf : g.Follow P) (hc : Scripts P.rel c d)
    (h : integralLimit g c = .ok (x, c')) :
    ∃ d', integralLimit (full declared) d = .ok (x, d') ∧ P.rel c' d' := by
  cases integralLimit_eq_ok.1 h with
  | negated sign follows =>
    have hc := hc.related (by simp [sign]) (by simp [sign])
    obtain ⟨d', hd, hr⟩ := hf.ofOperand (.same (P.step hc sign rfl)) follows
    exact ⟨d', integralLimit_eq_ok.2 (.negated (P.kind hc sign) hd), hr⟩
  | plain other here =>
    obtain ⟨d', hd, hr⟩ := hf.ofOperand hc here
    exact ⟨d', integralLimit_eq_ok.2 (.plain (kind_ne_of_operand hc here other rfl) hd), hr⟩

theorem isStep_differentialMark (isPartial : Bool) :
    (differentialMark isPartial).isStep = true := by cases isPartial <;> rfl

theorem ofIntegralBody (hf : g.Follow P) (hm : mode.Fits mode') (free : mode.bareArgument = false)
    (hc : P.rel c d)
    (h : integralBody g mode c = .ok (x, c'))
    (hends : c'.kind = none → TermEnds P.tail mode' ∧ Closes P.tail x ∧
      (Cursor.start P.tail 0).kind ≠ some .differential) :
    ∃ d', integralBody (full declared) mode' d = .ok (x, d') ∧ P.rel c' d' := by
  cases integralBody_eq_ok.1 h with
  | @differentialFirst isPartial _ _ middle _ mark first more follows =>
    obtain ⟨m, hm', hr⟩ := ofDifferential (P.step hc mark (isStep_differentialMark _)) first
    obtain ⟨d', hd, hr'⟩ := (hf.signedTerm hm (by simp [free]) hr).last follows fun hend =>
      ⟨(hends hend).1, (hends hend).2.1.last rfl⟩
    obtain ⟨k, hk⟩ := Option.ne_none_iff_exists'.1 (hf.starts.signedTerm follows).kind_ne_none
    rw [← P.startsFactor hr hm.insideBars hk] at more
    exact ⟨d', integralBody_eq_ok.2 (.differentialFirst (P.kind hc mark) hm' more hd), hr'⟩
  | differentialOnly mark first last =>
    obtain ⟨m, hm', hr⟩ := ofDifferential (P.step hc mark (isStep_differentialMark _)) first
    have last' : startsFactor mode' m = false := by
      cases hk : c'.kind with
      | none => exact P.startsFactor_of_end hr hk (hends hk).2.2 (hends hk).1.1.2
      | some k => rwa [P.startsFactor hr hm.insideBars hk]
    exact ⟨m, integralBody_eq_ok.2 (.differentialOnly (P.kind hc mark) hm' last'), hr⟩
  | term unmarked here =>
    obtain ⟨d', hd, hr⟩ := (hf.signedTerm hm (by simp [free]) hc).last here fun hend =>
      ⟨(hends hend).1, (hends hend).2.1⟩
    have inner := (hf.starts.signedTerm here).kind_ne_none
    exact ⟨d', integralBody_eq_ok.2
      (.term (fun isPartial => P.kind_ne_of_inner hc inner (unmarked isPartial)) hd), hr⟩

theorem kind_of_integralBody (hg : g.Starts) (h : integralBody g mode c = .ok (x, c')) :
    c.kind ≠ none := by
  cases integralBody_eq_ok.1 h with
  | differentialFirst mark | differentialOnly mark => simp [mark]
  | term _ here => exact (hg.signedTerm here).kind_ne_none

theorem ofIntegral (hf : g.Follow P) (hm : mode.Fits mode') (hc : P.rel c d)
    (h : integral g mode c = .ok (x, c'))
    (hends : c'.kind = none → FactorEnds P.tail mode' ∧ Closes P.tail x) :
    ∃ d', integral (full declared) mode' d = .ok (x, d') ∧ P.rel c' d' := by
  obtain ⟨bounds, c₁, lower, upper, c₂, body, h₁, h₂, hb, rfl⟩ := integral_eq_ok.1 h
  have step₁ := integralBound_eq_ok.1 h₁
  have step₂ := integralBound_eq_ok.1 h₂
  have inner₁ := inner_of_bound step₂ (kind_of_integralBody hf.starts hb)
  obtain ⟨d₁, h₁, hr₁⟩ :=
    ofBound hf.ofIntegralLimit hf.ofIntegralLimit hc (inner_of_bound step₁ inner₁) step₁
  obtain ⟨d₂, h₂, hr₂⟩ := ofBound hf.ofIntegralLimit hf.ofIntegralLimit hr₁ inner₁ step₂
  obtain ⟨d', hb, hr⟩ := hf.ofIntegralBody hm.body rfl hr₂ hb fun hend =>
    ⟨.ofBody (hends hend).1 (hends hend).2 rfl, (hends hend).2.last rfl,
      (hends hend).2 _ .whole rfl⟩
  exact ⟨d', integral_eq_ok.2 ⟨bounds, d₁, lower, upper, d₂, body, integralBound_eq_ok.2 h₁,
    integralBound_eq_ok.2 h₂, hb, rfl⟩, hr⟩

theorem isStep_sideMark (s : Side) : (sideMark s).isStep = true := by cases s <;> rfl

theorem ofSide {s : Option Side} (hc : P.rel c d) (h : side c = .ok (s, c'))
    (closed : c'.kind = some (.closing .curly)) :
    ∃ d', side d = .ok (s, d') ∧ P.rel c' d' := by
  cases side_eq_ok.1 h with
  | @braced s mark opened sign last =>
    have h₁ : P.rel c.next d.next := (P.mark hc mark (.inl rfl)).related (by simp [opened])
      fun _ => by cases s <;> simp [sign, sideMark]
    have h₂ := P.step h₁ opened rfl
    have h₃ := P.step h₂ sign (isStep_sideMark s)
    have inside : Passes c.next.next c.next.next.next :=
      .next sign (Rules.Sound.isPlain_sideMark s)
    exact ⟨_, side_eq_ok.2 (.braced (P.kind hc mark) (P.kind h₁ opened) (P.kind h₂ sign)
      (P.kind h₃ last)), P.close h₁ opened inside last h₃⟩
  | @raised s mark sign =>
    have h₁ : P.rel c.next d.next := (P.mark hc mark (.inl rfl)).related
      (by cases s <;> simp [sign, sideMark]) (by cases s <;> simp [sign, sideMark])
    exact ⟨_, side_eq_ok.2 (.raised (P.kind hc mark) (P.kind h₁ sign)),
      P.step h₁ sign (isStep_sideMark s)⟩
  | emptyCaret mark unopened unsigned =>
    have h₁ : P.rel c.next d.next :=
      (P.mark hc mark (.inl rfl)).related (by simp [closed]) (by simp [closed])
    have inner : c.next.kind ≠ none := by simp [closed]
    exact ⟨_, side_eq_ok.2 (.emptyCaret (P.kind hc mark) (P.kind_ne_of_inner h₁ inner unopened)
      fun s => P.kind_ne_of_inner h₁ inner (unsigned s)), h₁⟩
  | @bare s sign last =>
    have h₁ := P.step hc sign (isStep_sideMark s)
    rw [← Cursor.kind_next] at last
    have last' := P.kind h₁ last
    rw [Cursor.kind_next] at last'
    exact ⟨_, side_eq_ok.2 (.bare (P.kind hc sign) last'), h₁⟩
  | absent unmarked other =>
    have here := P.kind hc closed
    exact ⟨d, side_eq_ok.2 (.absent (by simp [here]) fun _ s => by
      cases s <;> simp [here, sideMark]), hc⟩

theorem ofLimit (hf : g.Follow P) (hm : mode.Fits mode') (hc : P.rel c d)
    (h : limit g mode c = .ok (x, c'))
    (hends : c'.kind = none → FactorEnds P.tail mode' ∧ Closes P.tail x) :
    ∃ d', limit (full declared) mode' d = .ok (x, d') ∧ P.rel c' d' := by
  obtain ⟨name, c₁, approach, c₂, s, c₃, body, mark, opened, named, arrow, target, hs, closed,
    hb, rfl⟩ := limit_eq_ok.1 h
  have h₀ : P.rel c.next d.next := (P.mark hc mark (.inr (.inl rfl))).related
    (by simp [opened]) fun _ => by simp [kind_of_symbolName named]
  obtain ⟨d₁, named', h₁⟩ := P.symbolName (P.step h₀ opened rfl) named
  have inner₂ : c₂.kind ≠ none := by
    cases side_eq_ok.1 hs with
    | braced here | raised here | emptyCaret here | bare here => simp [here]
    | absent => simp [closed]
  obtain ⟨k, hk⟩ := Option.ne_none_iff_exists'.1 inner₂
  obtain ⟨d₂, target', h₂⟩ := (hf.sum (.refl _) rfl (P.step h₁ arrow rfl)).inner target hk
  obtain ⟨d₃, hs', h₃⟩ := ofSide h₂ hs closed
  have inside : Passes c.next.next c₃ := (passes_of_symbolName named).trans
    (.step arrow rfl ((hf.sound.sum target).2.trans (Rules.Sound.ofSide hs)))
  have behind := P.close h₀ opened inside closed h₃
  obtain ⟨d', hb', hr⟩ := (hf.signedTerm hm.body nofun behind).last hb fun hend =>
    ⟨.ofBody (hends hend).1 (hends hend).2 rfl, (hends hend).2.last rfl⟩
  exact ⟨d', limit_eq_ok.2 ⟨name, d₁, approach, d₂, s, d₃, body, P.kind hc mark,
    P.kind h₀ opened, named', P.kind h₁ arrow, target', hs', P.kind h₃ closed, hb', rfl⟩, hr⟩

theorem kind_of_begins_plain {k : Token.Kind} (h : k.begins x = true)
    (plain : x.lastFactor.isPlain = true) : k = .number ∨ k = .symbol ∨ k = .infinity := by
  cases k with
  | number | symbol | infinity => simp
  | opening e =>
    cases e <;> cases x <;>
      simp_all [Token.Kind.begins, Formula.isApplication, Formula.lastFactor, Formula.isPlain]
  | _ =>
    cases x <;>
      simp_all [Token.Kind.begins, Formula.isApplication, Formula.lastFactor, Formula.isPlain]

theorem kind_of_plain_atom (h : atom g mode c = .ok (x, c')) (plain : x.lastFactor.isPlain = true) :
    c.kind = some .number ∨ c.kind = some .symbol ∨ c.kind = some .infinity := by
  obtain ⟨k, hk, hb⟩ := begins_of_atom h
  simpa [hk] using kind_of_begins_plain hb plain

theorem ofAtom (hf : g.Follow P) (hm : mode.Fits mode')
    (hi : mode.bareArgument = true → P.inside c d) (hc : P.rel c d) :
    P.Tracks (FactorEnds P.tail mode') mode.bareArgument (atom g mode c)
      (atom (full declared) mode' d) := by
  intro x c' hx hends
  have apart {k : Token.Kind} (here : c.kind = some k)
      (hk : k ≠ .number ∧ k ≠ .symbol ∧ k ≠ .infinity)
      (h : ∃ d', atom (full declared) mode' d = .ok (x, d') ∧ P.rel c' d') :
      ∃ d', atom (full declared) mode' d = .ok (x, d') ∧ P.rel c' d' ∧
        P.GoesOn (mode.bareArgument && x.lastFactor.isPlain) c' d' := by
    obtain ⟨d', hd, hr⟩ := h
    refine ⟨d', hd, hr, .behind fun plain => ?_⟩
    have := kind_of_plain_atom hx plain
    simp [here, hk] at this
  cases atom_eq_ok.1 hx with
  | number here =>
    obtain ⟨hr, ht⟩ := P.next hc here rfl
    have step : AtomStep (full declared) mode' d (.number d.text) d.next :=
      .number (P.kind hc here)
    rw [P.text hc here] at step
    exact ⟨_, atom_eq_ok.2 step, hr, .behind fun _ =>
      P.goesOn_of_plain hi (.number here) (.number (P.kind hc here)) fun _ => ht⟩
  | symbolOrCall here read =>
    obtain ⟨d', hd, hr⟩ := hf.ofSymbolOrCall hc hi read
    exact ⟨d', atom_eq_ok.2 (.symbolOrCall (P.kind hc here) hd), hr⟩
  | infinity here =>
    obtain ⟨hr, ht⟩ := P.next hc here rfl
    exact ⟨_, atom_eq_ok.2 (.infinity (P.kind hc here)), hr, .behind fun _ =>
      P.goesOn_of_plain hi (.infinity here) (.infinity (P.kind hc here)) fun _ => ht⟩
  | floor here inside =>
    obtain ⟨d', hd, hr⟩ := hf.ofEnclosed hc here inside
    exact apart here (by simp) ⟨d', atom_eq_ok.2 (.floor (P.kind hc here) hd), hr⟩
  | ceil here inside =>
    obtain ⟨d', hd, hr⟩ := hf.ofEnclosed hc here inside
    exact apart here (by simp) ⟨d', atom_eq_ok.2 (.ceil (P.kind hc here) hd), hr⟩
  | angle here inside =>
    obtain ⟨d', hd, hr⟩ := hf.ofAngle (P.step hc here rfl) inside fun hend => (hends hend).2
    exact apart here (by simp) ⟨d', atom_eq_ok.2 (.angle (P.kind hc here) hd), hr⟩
  | group here plain inside =>
    obtain ⟨d', hd, hr⟩ := hf.ofGroup hc here inside
    exact apart here (by simp) ⟨d', atom_eq_ok.2 (.group (P.kind hc here) plain hd), hr⟩
  | bars here outside inside =>
    obtain ⟨d', hd, hr⟩ := hf.ofBars (P.step hc here rfl) inside
    exact apart here (by simp)
      ⟨d', atom_eq_ok.2 (.bars (P.kind hc here) (hm.insideBars.trans outside) hd), hr⟩
  | application here read =>
    obtain ⟨d', hd, hr⟩ := hf.ofApplication hm hc here read hends
    exact apart here (by simp) ⟨d', atom_eq_ok.2 (.application (P.kind hc here) hd), hr⟩
  | root here read =>
    obtain ⟨d', hd, hr⟩ := hf.ofRoot (P.mark hc here (.inr (.inr rfl))) read
    exact apart here (by simp) ⟨d', atom_eq_ok.2 (.root (P.kind hc here) hd), hr⟩
  | fraction here read =>
    obtain ⟨d', hd, hr⟩ := hf.ofFraction (P.fork hc here (.inl rfl)) read
    exact apart here (by simp) ⟨d', atom_eq_ok.2 (.fraction (P.kind hc here) hd), hr⟩
  | binomial here read =>
    obtain ⟨d', hd, hr⟩ := hf.ofBinomial (P.fork hc here (.inr rfl)) read
    exact apart here (by simp) ⟨d', atom_eq_ok.2 (.binomial (P.kind hc here) hd), hr⟩
  | sum here read =>
    obtain ⟨d', hd, hr⟩ := hf.ofAggregate hm (P.step hc here rfl) read hends
    exact apart here (by simp) ⟨d', atom_eq_ok.2 (.sum (P.kind hc here) hd), hr⟩
  | product here read =>
    obtain ⟨d', hd, hr⟩ := hf.ofAggregate hm (P.step hc here rfl) read hends
    exact apart here (by simp) ⟨d', atom_eq_ok.2 (.product (P.kind hc here) hd), hr⟩
  | integral here read =>
    obtain ⟨d', hd, hr⟩ := hf.ofIntegral hm (P.step hc here rfl) read hends
    exact apart here (by simp) ⟨d', atom_eq_ok.2 (.integral (P.kind hc here) hd), hr⟩
  | limit here read =>
    obtain ⟨d', hd, hr⟩ := hf.ofLimit hm (P.step hc here rfl) read hends
    exact apart here (by simp) ⟨d', atom_eq_ok.2 (.limit (P.kind hc here) hd), hr⟩
  | @differential isPartial _ _ here read =>
    obtain ⟨d', hd, hr⟩ := ofDifferential (P.step hc here (isStep_differentialMark _)) read
    exact apart here (by cases isPartial <;> simp [differentialMark])
      ⟨d', atom_eq_ok.2 (.differential (P.kind hc here) hd), hr⟩

theorem ofFactor (hf : g.Follow P) (hm : mode.Fits mode')
    (hi : mode.bareArgument = true → P.inside c d) (hc : P.rel c d) :
    P.Tracks (FactorEnds P.tail mode') mode.bareArgument (factor g mode c)
      (factor (full declared) mode' d) := by
  intro x c' hx hends
  obtain ⟨base, after, ha, ht⟩ := factor_eq_ok.1 hx
  obtain ⟨m, hm', hr, goesOn⟩ := hf.ofAtom hm hi hc _ _ ha fun hend => by
    obtain ⟨rfl, rfl⟩ := hf.starts.factorTail (.inl hend) ht
    exact hends hend
  obtain ⟨d', hd, hr⟩ := hf.factorTail hm hr goesOn _ _ ht hends
  exact ⟨d', factor_eq_ok.2 ⟨base, m, hm', hd⟩, hr⟩

theorem ofFactorTail (hf : g.Follow P) {base : Formula} (hm : mode.Fits mode')
    (hc : P.rel c d) (ht : P.GoesOn (mode.bareArgument && base.lastFactor.isPlain) c d) :
    P.Tracks (FactorEnds P.tail mode') mode.bareArgument (Grammar.factorTail g mode base c)
      (Grammar.factorTail (full declared) mode' base d) := by
  intro x c' hx hends
  have marked {y : Formula} {m m' : Cursor} (plain : y.lastFactor.isPlain = false) :
      P.GoesOn (mode.bareArgument && y.lastFactor.isPlain) m m' :=
    .behind fun h => by simp [plain] at h
  cases factorTail_eq_ok.1 hx with
  | side mark left follows =>
    exact ⟨d, factorTail_eq_ok.2
      (.side (P.kind hc mark) (hm.limitTarget left) (P.sideFollows hc follows)), hc, ht⟩
  | @exponent e _ middle _ mark other above more =>
    obtain ⟨m, hm', hr⟩ := hf.exponent (P.mark hc mark (.inl rfl)) above
    obtain ⟨d', hd, hr'⟩ := hf.factorTail hm hr (marked (by cases e <;> rfl)) _ _ more hends
    have other' : (mode'.limitTarget && sideFollows d) = false := by
      rw [((starts_full declared).exponent hm').sideFollows, Bool.and_false]
    exact ⟨d', factorTail_eq_ok.2 (.exponent (P.kind hc mark) other' hm' hd), hr'⟩
  | factorial mark more =>
    obtain ⟨d', hd, hr⟩ := hf.factorTail hm (P.step hc mark rfl) (marked rfl) _ _ more hends
    exact ⟨d', factorTail_eq_ok.2 (.factorial (P.kind hc mark) hd), hr⟩
  | primed mark more =>
    obtain ⟨d', hd, hr⟩ := hf.factorTail hm (P.step hc mark rfl) (marked rfl) _ _ more hends
    exact ⟨d', factorTail_eq_ok.2 (.primed (P.kind hc mark) hd), hr⟩
  | done noCaret noBang noPrime =>
    by_cases mark : d.kind = some .caret
    · -- Only the end can have a caret behind it, which then writes the side of a limit.
      have last : c.kind = none :=
        Classical.not_not.1 fun inner => P.kind_ne_of_inner hc inner noCaret mark
      obtain ⟨left, follows⟩ := (hends last).1.1 ((P.kind_of_end hc last).symm.trans mark)
      rw [← P.sideFollows_of_end hc last] at follows
      exact ⟨d, factorTail_eq_ok.2 (.side mark left follows), hc, ht⟩
    · exact ⟨d, factorTail_eq_ok.2 (.done mark (P.kind_ne hc rfl noBang)
        (P.kind_ne hc rfl noPrime)), hc, ht⟩

theorem ofMarker {e : Exponent} (hc : P.rel c d) (opened : c.kind = some (.opening .curly))
    (all : bracedMarker? c = some e) :
    bracedMarker? d = some e ∧ P.rel (c.skip 3) (d.skip 3) := by
  obtain ⟨closed, inside⟩ := bracedMarker_eq_some.1 all
  have second (c : Cursor) : c.kindAt 2 = c.next.next.kind := by simp [Cursor.kind]
  rw [second] at closed
  simp only [← Cursor.kind_next] at inside
  have h₁ := P.step hc opened rfl
  have close {k : Token.Kind} (here : c.next.kind = some k) (step : k.isStep = true)
      (plain : k.isPlain = true) : P.rel (c.skip 3) (d.skip 3) :=
    P.close hc opened (.next here plain) closed (P.step h₁ here step)
  have marker {k : Token.Kind} (here : c.next.kind = some k) (step : k.isStep = true) :
      d.kindAt 1 = some k ∧ d.kindAt 2 = some (.closing .curly) := by
    rw [second, ← Cursor.kind_next]
    exact ⟨P.kind h₁ here, P.kind (P.step h₁ here step) closed⟩
  rcases inside with ⟨here | here, rfl⟩ | ⟨here, rfl⟩
  · obtain ⟨h1, h2⟩ := marker here rfl
    exact ⟨bracedMarker_eq_some.2 ⟨h2, .inl ⟨.inl h1, rfl⟩⟩, close here rfl rfl⟩
  · obtain ⟨h1, h2⟩ := marker here rfl
    exact ⟨bracedMarker_eq_some.2 ⟨h2, .inl ⟨.inr h1, rfl⟩⟩, close here rfl rfl⟩
  · obtain ⟨h1, h2⟩ := marker here rfl
    exact ⟨bracedMarker_eq_some.2 ⟨h2, .inr ⟨h1, rfl⟩⟩, close here rfl rfl⟩

theorem ofExponent (hf : g.Follow P) {e : Exponent} (hc : Scripts P.rel c d)
    (h : Grammar.exponent g c = .ok (e, c')) :
    ∃ d', Grammar.exponent (full declared) d = .ok (e, d') ∧ P.rel c' d' := by
  cases hc with
  | same hc =>
    cases exponent_eq_ok.1 h with
    | marker opened all =>
      obtain ⟨hd, hr⟩ := ofMarker hc opened all
      exact ⟨_, exponent_eq_ok.2 (.marker (P.kind hc opened) hd), hr⟩
    | braced opened _ inside =>
      obtain ⟨d', hd, hr⟩ := hf.ofEnclosed hc opened inside
      exact ⟨d', exponent_eq_ok.2 (.braced (P.kind hc opened) (noMarker hd) hd), hr⟩
    | dagger mark =>
      rcases mark with hk | hk
      · exact ⟨_, exponent_eq_ok.2 (.dagger (.inl (P.kind hc hk))), P.step hc hk rfl⟩
      · exact ⟨_, exponent_eq_ok.2 (.dagger (.inr (P.kind hc hk))), P.step hc hk rfl⟩
    | prime mark => exact ⟨_, exponent_eq_ok.2 (.prime (P.kind hc mark)), P.step hc mark rfl⟩
    | negated sign follows =>
      obtain ⟨d', hd, hr⟩ := hf.exponent (.same (P.step hc sign rfl)) follows
      exact ⟨d', exponent_eq_ok.2 (.negated (P.kind hc sign) hd), hr⟩
    | digit taken =>
      obtain ⟨d', hd, hr, -⟩ := P.digit hc taken
      exact ⟨d', exponent_eq_ok.2 (.digit hd), hr⟩
    | symbol here =>
      have step : ExponentStep (full declared) d (.value (.symbol d.text)) d.next :=
        .symbol (P.kind hc here)
      rw [P.text hc here] at step
      exact ⟨_, exponent_eq_ok.2 step, P.step hc here rfl⟩
    | infinity here =>
      exact ⟨_, exponent_eq_ok.2 (.infinity (P.kind hc here)), P.step hc here rfl⟩
    | group opened inside =>
      obtain ⟨d', hd, hr⟩ := hf.ofGroup hc opened inside
      exact ⟨d', exponent_eq_ok.2 (.group (P.kind hc opened) hd), hr⟩
    | fraction here read =>
      obtain ⟨d', hd, hr⟩ := hf.ofFraction (P.fork hc here (.inl rfl)) read
      exact ⟨d', exponent_eq_ok.2 (.fraction (P.kind hc here) hd), hr⟩
    | binomial here read =>
      obtain ⟨d', hd, hr⟩ := hf.ofBinomial (P.fork hc here (.inr rfl)) read
      exact ⟨d', exponent_eq_ok.2 (.binomial (P.kind hc here) hd), hr⟩
    | root here read =>
      obtain ⟨d', hd, hr⟩ := hf.ofRoot (P.mark hc here (.inr (.inr rfl))) read
      exact ⟨d', exponent_eq_ok.2 (.root (P.kind hc here) hd), hr⟩
  | @split digit _ _ after d' taken braces related =>
    have hone : Grammar.exponent g c = .ok (.value (.number digit), after) :=
      exponent_eq_ok.2 (.digit taken)
    obtain ⟨rfl, rfl⟩ : .value (.number digit) = e ∧ after = c' := by simpa [hone] using h
    have hd : bracketed (full declared) .curly d.next = .ok (.number digit, d') := ofBraces braces
    exact ⟨d', exponent_eq_ok.2 (.braced braces.opened (noMarker hd) hd), related⟩
  | @join digit _ _ after d' braces taken related =>
    cases exponent_eq_ok.1 h with
    | braced opened _ inside =>
      obtain ⟨rfl, rfl⟩ := number_of_braces hf.starts braces inside
      exact ⟨d', exponent_eq_ok.2 (.digit taken), related⟩
    | marker opened all =>
      obtain ⟨-, inside⟩ := bracedMarker_eq_some.1 all
      simp [← Cursor.kind_next, braces.2.1] at inside
    | dagger mark => simp [braces.opened] at mark
    | digit other => exact absurd (Cursor.kind_of_takeDigit other) (by simp [braces.opened])
    | prime here | negated here | symbol here | infinity here | group here | fraction here
    | binomial here | root here => simp [braces.opened] at here

theorem ofSigned {ends : Prop} {signed signed' bare bare' : Cursor → Attempt (Formula × Cursor)}
    (hs : mode.bareArgument = true → P.starts c d) (hc : P.rel c d)
    (hsigned : ∀ {c d : Cursor}, (mode.bareArgument = true → P.starts c d) → P.rel c d →
      P.Tracks ends false (signed c) (signed' d))
    (hbare : ∀ {c d : Cursor}, (mode.bareArgument = true → P.inside c d) → P.rel c d →
      P.Tracks ends false (bare c) (bare' d))
    (inner : ∀ {c c' : Cursor} {x : Formula}, bare c = .ok (x, c') → c.kind ≠ none)
    (hx : SignedStep signed bare c x c') (hends : c'.kind = none → ends ∧ Closes P.tail x) :
    ∃ d', SignedStep signed' bare' d x d' ∧ P.rel c' d' := by
  have behind {k : Token.Kind} (sign : c.kind = some k) (hk : isSign (some k) = true) :
      mode.bareArgument = true → P.starts c.next d.next := fun hb =>
    P.sign (hs hb) (by rwa [sign]) (by rwa [P.kind hc sign])
  cases hx with
  | minus sign follows =>
    obtain ⟨d', hd, hr⟩ := (hsigned (behind sign rfl) (P.step hc sign rfl)).last follows
      fun hend => ⟨(hends hend).1, (hends hend).2.last rfl⟩
    exact ⟨d', .minus (P.kind hc sign) hd, hr⟩
  | plus sign follows =>
    obtain ⟨d', hd, hr⟩ :=
      (hsigned (behind sign rfl) (P.step hc sign rfl)).last follows hends
    exact ⟨d', .plus (P.kind hc sign) hd, hr⟩
  | bare noMinus noPlus here =>
    obtain ⟨d', hd, hr⟩ := (hbare (fun hb => P.factor (hs hb)) hc).last here hends
    exact ⟨d', .bare (P.kind_ne_of_inner hc (inner here) noMinus)
      (P.kind_ne_of_inner hc (inner here) noPlus) hd, hr⟩

theorem inner_of_startsFactor (h : startsFactor mode c = true) : c.kind ≠ none := by
  intro hc
  simp [startsFactor, hc] at h

theorem ofSignedFactor (hf : g.Follow P) (hm : mode.Fits mode')
    (hs : mode.bareArgument = true → P.starts c d) (hc : P.rel c d) :
    P.Tracks (FactorEnds P.tail mode') false (Grammar.signedFactor g mode c)
      (Grammar.signedFactor (full declared) mode' d) := by
  intro x c' hx hends
  obtain ⟨d', hd, hr⟩ := ofSigned hs hc (hf.signedFactor hm)
    (fun hi hc => (hf.ofFactor hm hi hc).loose)
    (fun h => inner_of_startsFactor (startsFactor_of_factor h)) (signedFactor_eq_ok.1 hx) hends
  exact ⟨d', signedFactor_eq_ok.2 hd, hr, .loose c' d'⟩

theorem ofTerm (hf : g.Follow P) (hm : mode.Fits mode')
    (hi : mode.bareArgument = true → P.inside c d) (hc : P.rel c d) :
    P.Tracks (TermEnds P.tail mode') false (term g mode c) (term (full declared) mode' d) := by
  intro x c' hx hends
  obtain ⟨left, after, hl, ht⟩ := term_eq_ok.1 hx
  obtain ⟨m, hm', hr, goesOn⟩ := hf.ofFactor hm hi hc _ _ hl fun hend => by
    obtain ⟨rfl, rfl⟩ := hf.starts.termTail (.inl hend) ht
    exact ⟨(hends hend).1.1, (hends hend).2⟩
  obtain ⟨d', hd, hr⟩ := hf.termTail hm hr goesOn _ _ ht hends
  exact ⟨d', term_eq_ok.2 ⟨left, m, hm', hd⟩, hr⟩

theorem ofSignedTerm (hf : g.Follow P) (hm : mode.Fits mode')
    (hs : mode.bareArgument = true → P.starts c d) (hc : P.rel c d) :
    P.Tracks (TermEnds P.tail mode') false (Grammar.signedTerm g mode c)
      (Grammar.signedTerm (full declared) mode' d) := by
  intro x c' hx hends
  obtain ⟨d', hd, hr⟩ := ofSigned hs hc (hf.signedTerm hm) (hf.ofTerm hm)
    (fun h => inner_of_startsFactor (startsFactor_of_term h)) (signedTerm_eq_ok.1 hx) hends
  exact ⟨d', signedTerm_eq_ok.2 hd, hr, .loose c' d'⟩

theorem kind_of_factorSign {op : Operation} (hs : factorSign? c.kind = some op) :
    ∃ k, c.kind = some k ∧ k.isStep = true := by
  obtain ⟨hk, -⟩ | ⟨hk, -⟩ := factorSign_eq_some.1 hs
  · exact ⟨_, hk, rfl⟩
  · exact ⟨_, hk, rfl⟩

theorem kind_of_termSign {op : Operation} (hs : termSign? c.kind = some op) :
    ∃ k, c.kind = some k ∧ k.isStep = true := by
  obtain ⟨hk, -⟩ | ⟨hk, -⟩ := termSign_eq_some.1 hs
  · exact ⟨_, hk, rfl⟩
  · exact ⟨_, hk, rfl⟩

theorem ofTermTail (hf : g.Follow P) {left : Formula} (hm : mode.Fits mode')
    (hc : P.rel c d) (ht : P.GoesOn (mode.bareArgument && left.lastFactor.isPlain) c d) :
    P.Tracks (TermEnds P.tail mode') false (Grammar.termTail g mode left c)
      (Grammar.termTail (full declared) mode' left d) := by
  intro x c' hx hends
  cases termTail_eq_ok.1 hx with
  | differential last => exact ⟨d, termTail_eq_ok.2 (.differential last), hc, .loose c d⟩
  | bareArgument other sign bare =>
    obtain ⟨k, hk, -⟩ := kind_of_factorSign sign
    rw [hk, ← P.kind hc hk] at sign
    exact ⟨d, termTail_eq_ok.2 (.bareArgument other sign (hm.bareArgument.trans bare)), hc,
      .loose c d⟩
  | @explicit op right _ middle _ other sign free follows more =>
    obtain ⟨k, hk, step⟩ := kind_of_factorSign sign
    obtain ⟨m, hm', hr⟩ := (hf.signedFactor hm (by simp [free]) (P.step hc hk step)).last follows
      fun hend => by
        obtain ⟨rfl, rfl⟩ := hf.starts.termTail (.inl hend) more
        exact ⟨(hends hend).1.1, (hends hend).2.last rfl⟩
    have goesOn : P.GoesOn (mode.bareArgument &&
        (Formula.binary op left right).lastFactor.isPlain) middle m := .behind fun _ hb => by
      simp [free] at hb
    obtain ⟨d', hd, hr'⟩ := hf.termTail hm hr goesOn _ _ more hends
    rw [hk, ← P.kind hc hk] at sign
    exact ⟨d', termTail_eq_ok.2
      (.explicit other sign (hm.bareArgument.trans free) hm' hd), hr'⟩
  | @juxtaposed adjacency right _ middle _ other unsigned shape follows more =>
    obtain ⟨k, hk⟩ := Option.ne_none_iff_exists'.1
      (inner_of_startsFactor (startsFactor_of_factor follows))
    rw [hf.names] at shape
    obtain ⟨m, hm', hr, goesOn⟩ :=
      hf.ofFactor hm (P.inside_of_adjacency ht shape) hc _ _ follows fun hend => by
        obtain ⟨rfl, rfl⟩ := hf.starts.termTail (.inl hend) more
        exact ⟨(hends hend).1.1, (hends hend).2.last rfl⟩
    have goesOn' : P.GoesOn (mode.bareArgument &&
        (Formula.juxtaposed adjacency left right).lastFactor.isPlain) middle m := goesOn
    obtain ⟨d', hd, hr'⟩ := hf.termTail hm hr goesOn' _ _ more hends
    rw [hk, ← P.kind hc hk] at unsigned
    rw [← P.adjacency hm hc ht hk] at shape
    exact ⟨d', termTail_eq_ok.2 (.juxtaposed other unsigned shape hm' hd), hr'⟩
  | done other unsigned apart =>
    refine ⟨d, termTail_eq_ok.2 (.done other ?_ ?_), hc, .loose c d⟩
    · rw [factorSign_eq_none] at unsigned ⊢
      exact ⟨P.kind_ne hc rfl unsigned.1, P.kind_ne hc rfl unsigned.2⟩
    · cases hk : c.kind with
      | none => exact P.adjacency_of_end hc hk (hends hk).1
      | some k => rwa [Rules.declared_full, P.adjacency hm hc ht hk, ← hf.names]

theorem ofSum (hf : g.Follow P) (hm : mode.Fits mode') (free : mode.bareArgument = false)
    (hc : P.rel c d) :
    P.Tracks (SumEnds P.tail mode') false (Grammar.sum g mode c)
      (Grammar.sum (full declared) mode' d) := by
  intro x c' hx hends
  obtain ⟨left, after, hl, ht⟩ := sum_eq_ok.1 hx
  obtain ⟨m, hm', hr⟩ := (hf.signedTerm hm (by simp [free]) hc).last hl fun hend => by
    obtain ⟨rfl, rfl⟩ := hf.starts.sumTail (.inl hend) ht
    exact ⟨(hends hend).1.1, (hends hend).2⟩
  obtain ⟨d', hd, hr⟩ := hf.sumTail hm free hr _ _ ht hends
  exact ⟨d', sum_eq_ok.2 ⟨left, m, hm', hd⟩, hr⟩

theorem ofSumTail (hf : g.Follow P) {left : Formula} (hm : mode.Fits mode')
    (free : mode.bareArgument = false) (hc : P.rel c d) :
    P.Tracks (SumEnds P.tail mode') false (Grammar.sumTail g mode left c)
      (Grammar.sumTail (full declared) mode' left d) := by
  intro x c' hx hends
  cases sumTail_eq_ok.1 hx with
  | side sign target last =>
    obtain ⟨k, hk, step⟩ := kind_of_termSign sign
    rw [← Cursor.kind_next] at last
    have last' := P.kind (P.step hc hk step) last
    rw [Cursor.kind_next] at last'
    rw [hk, ← P.kind hc hk] at sign
    exact ⟨d, sumTail_eq_ok.2 (.side sign (hm.limitTarget target) last'), hc, .loose c d⟩
  | more sign inner follows more =>
    obtain ⟨k, hk, step⟩ := kind_of_termSign sign
    obtain ⟨m, hm', hr⟩ := (hf.signedTerm hm (by simp [free]) (P.step hc hk step)).last follows
      fun hend => by
        obtain ⟨rfl, rfl⟩ := hf.starts.sumTail (.inl hend) more
        exact ⟨(hends hend).1.1, (hends hend).2.last rfl⟩
    obtain ⟨d', hd, hr'⟩ := hf.sumTail hm free hr _ _ more hends
    have inner' : d.kindAt 1 ≠ some (.closing .curly) := by
      rw [← Cursor.kind_next]
      exact ((starts_full declared).signedTerm hm').not_closing .curly
    rw [hk, ← P.kind hc hk] at sign
    exact ⟨d', sumTail_eq_ok.2 (.more sign (fun h => inner' h.2) hm' hd), hr'⟩
  | done unsigned =>
    by_cases sign : isSign d.kind = true
    · -- Only the end can have a sign behind it, which then writes the side of a limit.
      have last : c.kind = none := by
        refine Classical.not_not.1 fun inner => ?_
        obtain ⟨k, hk⟩ := Option.ne_none_iff_exists'.1 inner
        rw [P.kind hc hk] at sign
        rw [hk] at unsigned
        cases k <;> simp_all [isSign, termSign?]
      obtain ⟨target, closed⟩ := (hends last).1.2 (P.kind_of_end hc last ▸ sign)
      rw [← P.kindAt_of_end hc last 1] at closed
      obtain ⟨op, hop⟩ : ∃ op, termSign? d.kind = some op := by
        cases hk : d.kind with
        | none => simp [hk, isSign] at sign
        | some k => cases k <;> simp_all [isSign, termSign?]
      exact ⟨d, sumTail_eq_ok.2 (.side hop target closed), hc, .loose c d⟩
    · have unsigned' : termSign? d.kind = none := by
        refine termSign_eq_none.2 ⟨fun h => ?_, fun h => ?_⟩
        · exact sign (by simp [h, isSign])
        · exact sign (by simp [h, isSign])
      exact ⟨d, sumTail_eq_ok.2 (.done unsigned'), hc, .loose c d⟩

theorem ofArgumentsRule (hf : g.Follow P) {xs : List Formula} (hc : P.rel c d)
    (h : Grammar.arguments g delimiter c = .ok (xs, c')) :
    ∃ m m', Passes c m ∧ m.kind = some (.closing delimiter) ∧ m.next = c' ∧ P.rel m m' ∧
      Grammar.arguments (full declared) delimiter d = .ok (xs, m'.next) := by
  cases arguments_eq_ok.1 h with
  | more first comma follows =>
    obtain ⟨n, hn, hr⟩ := (hf.sum (.refl _) rfl hc).inner first comma
    obtain ⟨m, m', passes, closed, rfl, hm, hd⟩ := hf.arguments (P.step hr comma rfl) follows
    exact ⟨m, m', (hf.sound.sum first).2.trans (.step comma rfl passes), closed, rfl, hm,
      arguments_eq_ok.2 (.more hn (P.kind hr comma) hd)⟩
  | @last _ middle first closed =>
    obtain ⟨m', hm, hr⟩ := (hf.sum (.refl _) rfl hc).inner first closed
    exact ⟨middle, m', (hf.sound.sum first).2, closed, rfl, hr,
      arguments_eq_ok.2 (.last hm (P.kind hr closed))⟩

theorem deeper {depth : Nat} (hf : (rules declared depth).Follow P) :
    (rules declared (depth + 1)).Follow P where
  sound := hf.sound.deeper
  starts := hf.starts.deeper
  names := hf.names
  argument below above := ⟨_, _, _, _, below, above⟩
  takesAll unopened h last := ⟨unopened, _, _, _, _, h, last⟩
  sum hm free hc := sum_full declared ▸ hf.ofSum hm free hc
  sumTail hm free hc := sumTail_full declared ▸ hf.ofSumTail hm free hc
  signedTerm hm hs hc := signedTerm_full declared ▸ hf.ofSignedTerm hm hs hc
  termTail hm hc ht := termTail_full declared ▸ hf.ofTermTail hm hc ht
  signedFactor hm hs hc := signedFactor_full declared ▸ hf.ofSignedFactor hm hs hc
  factorTail hm hc ht := factorTail_full declared ▸ hf.ofFactorTail hm hc ht
  exponent hc h := exponent_full declared ▸ hf.ofExponent hc h
  arguments hc h := arguments_full declared ▸ hf.ofArgumentsRule hc h

end Rules.Follow

theorem follow_exhausted (P : Pairing declared) : (rules declared 0).Follow P where
  sound := sound_exhausted declared
  starts := starts_exhausted declared
  names := rfl
  argument below above := ⟨_, _, _, _, below, above⟩
  takesAll _ h := nomatch h
  sum _ _ _ _ _ hx := nomatch hx
  sumTail _ _ _ _ _ hx := nomatch hx
  signedTerm _ _ _ _ _ hx := nomatch hx
  termTail _ _ _ _ _ hx := nomatch hx
  signedFactor _ _ _ _ _ hx := nomatch hx
  factorTail _ _ _ _ _ hx := nomatch hx
  exponent _ hx := nomatch hx
  arguments _ hx := nomatch hx

theorem follow_rules (P : Pairing declared) (depth : Nat) : (rules declared depth).Follow P := by
  induction depth with
  | zero => exact follow_exhausted P
  | succ depth ih => exact ih.deeper

/-- The full rules read what the rules of any depth read. -/
theorem follow_full (P : Pairing declared) : (full declared).Follow P := by
  have follow (c : Cursor) := follow_rules P (sufficientDepth c)
  exact {
    sound := Rules.sound_full declared
    starts := starts_full declared
    names := rfl
    argument := argumentFrom_full
    takesAll := fun {_ c _ _} => (follow c).takesAll
    sum := fun {_ _ c _} => (follow c).sum
    sumTail := fun {_ _ _ c _} => (follow c).sumTail
    signedTerm := fun {_ _ c _} => (follow c).signedTerm
    termTail := fun {_ _ _ c _} => (follow c).termTail
    signedFactor := fun {_ _ c _} => (follow c).signedFactor
    factorTail := fun {_ _ _ c _} => (follow c).factorTail
    exponent := fun {c _ _ _} => (follow c).exponent
    arguments := fun {_ c _ _ _} => (follow c).arguments }

end AnswerKey.Grammar

namespace AnswerKey

open Grammar (Rules)

variable {declared : List String} {P : Grammar.Pairing declared} {c c' d : Cursor} {x : Formula}

theorem Grammar.Pairing.tracks_member
    (hends : ∀ y, SumEnds P.tail .plain ∧ Closes P.tail y) (hc : P.rel c d)
    (h : member (Rules.full declared) c = .ok (x, c')) :
    ∃ d', member (Rules.full declared) d = .ok (x, d') ∧ P.rel c' d' := by
  have hf := follow_full P
  cases member_eq_ok.1 h with
  | relation first sign second single =>
    obtain ⟨m, hm, hr⟩ := (hf.sum (.refl _) rfl hc).inner first sign
    obtain ⟨d', hd, hr'⟩ :=
      (hf.sum (.refl _) rfl (P.step hr sign rfl)).last second fun _ => hends _
    exact ⟨d', member_eq_ok.2 (.relation hm (P.kind hr sign) hd
      fun r => P.kind_ne hr' rfl (single r)), hr'⟩
  | expression only unrelated =>
    obtain ⟨d', hd, hr⟩ := (hf.sum (.refl _) rfl hc).last only fun _ => hends _
    exact ⟨d', member_eq_ok.2 (.expression hd fun r => P.kind_ne hr rfl (unrelated r)), hr⟩

/-- A text that starts like a formula's tokens starts with the formula, and what
is left is the tail. -/
theorem Grammar.Pairing.member_of_ofTokens {ts : List Token} {limit : Nat}
    (hends : ∀ y, SumEnds P.tail .plain ∧ Closes P.tail y)
    (hc : P.rel (Cursor.start ts limit) d) (hx : Formula.ofTokens declared ts limit = .ok x) :
    ∃ last, member (Rules.full declared) d = .ok (x, last) ∧ last.tokens = P.tail := by
  obtain ⟨last, hm, hl⟩ := Formula.ofTokens_eq_ok_full.1 hx
  obtain ⟨d', hd, hr⟩ := P.tracks_member hends hc hm
  exact ⟨d', hd, P.ended hr (by simp [Cursor.kind, Cursor.kindAt, hl])⟩

end AnswerKey

import AnswerKey.Proofs.Expr.OfFormula
import AnswerKey.Proofs.Grammar.Steps.Term

/-! The numbers and names of a formula that is read from tokens of some kind:
what holds of the texts of the tokens, of a digit and of what it leaves holds
of the formula's numbers and names too. -/
namespace AnswerKey

namespace Formula

def HasWords (D N : String → Prop) : Formula → Prop
  | number digits => D digits
  | symbol name | call name _ | aggregate _ name _ _ _ | limit name _ _ _
  | differential (some name) _ => N name
  | _ => True

inductive Worded (D N : String → Prop) : Formula → Prop
  | mk {f : Formula} (head : f.HasWords D N) (parts : ∀ g ∈ f.parts, g.Worded D N) : Worded D N f

variable {D N : String → Prop} {f g : Formula}

theorem Worded.head (h : f.Worded D N) : f.HasWords D N := by
  cases h with
  | mk head parts => exact head

theorem Worded.of_mem_parts (h : f.Worded D N) (hg : g ∈ f.parts) : g.Worded D N := by
  cases h with
  | mk head parts => exact parts g hg

theorem worded_number {digits : String} (h : D digits) : (number digits).Worded D N :=
  .mk h (List.forall_mem_nil _)

theorem worded_symbol {name : String} (h : N name) : (symbol name).Worded D N :=
  .mk h (List.forall_mem_nil _)

theorem worded_infinity : infinity.Worded D N := .mk trivial (List.forall_mem_nil _)

end Formula

namespace Cursor

def All (P : Token → Prop) (c : Cursor) : Prop := ∀ t ∈ c.tokens, P t

namespace All

variable {P : Token → Prop} {c c' : Cursor} {digit : String}

theorem next (h : c.All P) : c.next.All P := by
  unfold Cursor.next
  split
  · exact h
  · next t rest ht =>
    rw [All, ht] at h
    exact fun u hu => h u (List.mem_cons_of_mem t hu)

theorem skip (h : c.All P) (n : Nat) : (c.skip n).All P := by
  induction n generalizing c with
  | zero => exact h
  | succ n ih => exact ih h.next

theorem text (h : c.All P) {k : Token.Kind} (here : c.kind = some k) :
    ∃ t, P t ∧ t.kind = k ∧ c.text = t.text := by
  obtain ⟨t, rest, ht, hk⟩ := kind_eq_some.1 here
  exact ⟨t, h t (by simp [ht]), hk, by simp [Cursor.text, ht]⟩

end All

end Cursor

/-- Tokens with `P` give numbers with `D` and names with `N`, and what a digit
leaves of a number has `P` again. -/
structure Token.Yields (P : Token → Prop) (D N : String → Prop) : Prop where
  number {t : Token} (ht : P t) (kind : t.kind = .number) : D t.text
  digit {t : Token} {d : Char} {others : List Char} (ht : P t) (kind : t.kind = .number)
    (text : t.text.toList = d :: others) (isDigit : d.isDigit = true) : D d.toString
  left {t : Token} {d : Char} {others : List Char} (ht : P t) (kind : t.kind = .number)
    (text : t.text.toList = d :: others) (isDigit : d.isDigit = true) (more : others ≠ []) :
    P { t with text := String.ofList others, start := t.start + 1 }
  symbol {t : Token} (ht : P t) (kind : t.kind = .symbol) : N t.text
  name {c c' : Cursor} {name : String} (hc : c.All P)
    (h : Grammar.symbolName c = .ok (name, c')) : N name

namespace Token.Yields

open Grammar (SubscriptStep symbolName symbolName_eq_ok)

variable {P : Token → Prop} {D N : String → Prop} {c c' : Cursor} {digit name : String}

theorem ofNumber (hy : Yields P D N) (hc : c.All P) (here : c.kind = some .number) :
    D c.text := by
  obtain ⟨t, ht, hk, htext⟩ := hc.text here
  exact htext ▸ hy.number ht hk

theorem ofWord (hy : Yields P D N) (hc : c.All P) (here : c.kind = some .symbol) : N c.text := by
  obtain ⟨t, ht, hk, htext⟩ := hc.text here
  exact htext ▸ hy.symbol ht hk

theorem ofDigit (hy : Yields P D N) (hc : c.All P) (taken : c.takeDigit? = some (digit, c')) :
    D digit ∧ c'.All P := by
  cases Cursor.takeDigit_eq_some.1 taken with
  | last here number text isDigit =>
    exact ⟨hy.digit (hc _ (by simp [here])) number text isDigit, hc.next⟩
  | @more t rest _ _ here number text isDigit left =>
    have hall : P t ∧ ∀ u ∈ rest, P u := by
      rw [Cursor.All, here] at hc
      exact List.forall_mem_cons.1 hc
    exact ⟨hy.digit hall.1 number text isDigit,
      List.forall_mem_cons.2 ⟨hy.left hall.1 number text isDigit left, hall.2⟩⟩

theorem ofSubscript (hy : Yields P D N) (hc : c.All P) (h : SubscriptStep c name c') :
    c'.All P := by
  cases h with
  | braced opened words joined _ stop closed =>
    subst stop
    exact (hc.next.skip _).next
  | digit taken => exact (hy.ofDigit hc taken).2
  | symbol here => exact hc.next

theorem ofSymbolName (hy : Yields P D N) (hc : c.All P) (h : symbolName c = .ok (name, c')) :
    N name ∧ c'.All P := by
  refine ⟨hy.name hc h, ?_⟩
  cases symbolName_eq_ok.1 h with
  | plain => exact hc.next
  | subscripted here _ below => exact hy.ofSubscript hc.next.next below

end Token.Yields

namespace Grammar

open Formula (Worded worded_number worded_symbol worded_infinity)

variable {P : Token → Prop} {D N : String → Prop} {c c' : Cursor}

def Exponent.Worded (D N : String → Prop) : Exponent → Prop
  | .value x => x.Worded D N
  | .dagger | .prime => True

/-- Readings of tokens with `P` give worded formulas and leave tokens with `P`. -/
structure Rules.Words (P : Token → Prop) (D N : String → Prop) (g : Rules) : Prop where
  yields : Token.Yields P D N
  sum {mode : Mode} {c c' : Cursor} {x : Formula} (hc : c.All P)
    (h : g.sum mode c = .ok (x, c')) : Worded D N x ∧ c'.All P
  sumTail {mode : Mode} {left x : Formula} {c c' : Cursor} (hc : c.All P) (hl : Worded D N left)
    (h : g.sumTail mode left c = .ok (x, c')) : Worded D N x ∧ c'.All P
  signedTerm {mode : Mode} {c c' : Cursor} {x : Formula} (hc : c.All P)
    (h : g.signedTerm mode c = .ok (x, c')) : Worded D N x ∧ c'.All P
  termTail {mode : Mode} {left x : Formula} {c c' : Cursor} (hc : c.All P) (hl : Worded D N left)
    (h : g.termTail mode left c = .ok (x, c')) : Worded D N x ∧ c'.All P
  signedFactor {mode : Mode} {c c' : Cursor} {x : Formula} (hc : c.All P)
    (h : g.signedFactor mode c = .ok (x, c')) : Worded D N x ∧ c'.All P
  factorTail {mode : Mode} {base x : Formula} {c c' : Cursor} (hc : c.All P) (hb : Worded D N base)
    (h : g.factorTail mode base c = .ok (x, c')) : Worded D N x ∧ c'.All P
  exponent {c c' : Cursor} {e : Exponent} (hc : c.All P) (h : g.exponent c = .ok (e, c')) :
    e.Worded D N ∧ c'.All P
  arguments {d : Delimiter} {c c' : Cursor} {xs : List Formula} (hc : c.All P)
    (h : g.arguments d c = .ok (xs, c')) : (∀ x ∈ xs, Worded D N x) ∧ c'.All P

theorem words_exhausted (hy : Token.Yields P D N) (declared : List String) :
    (Rules.exhausted declared).Words P D N where
  yields := hy
  sum _ h := nomatch h
  sumTail _ _ h := nomatch h
  signedTerm _ h := nomatch h
  termTail _ _ h := nomatch h
  signedFactor _ h := nomatch h
  factorTail _ _ h := nomatch h
  exponent _ h := nomatch h
  arguments _ h := nomatch h

namespace Rules.Words

variable {g : Rules} {mode : Mode} {x : Formula} {d : Delimiter} {f : Builtin}

theorem ofBracketed (hg : g.Words P D N) (hc : c.All P) (h : bracketed g d c = .ok (x, c')) :
    Worded D N x ∧ c'.All P := by
  obtain ⟨last, hs, -, rfl⟩ := bracketed_eq_ok.1 h
  obtain ⟨hx, hl⟩ := hg.sum hc hs
  exact ⟨hx, hl.next⟩

theorem ofGroup (hg : g.Words P D N) (hc : c.All P) (h : group g d c = .ok (x, c')) :
    Worded D N x ∧ c'.All P := by
  obtain ⟨inner, hi, rfl⟩ := group_eq_ok.1 h
  obtain ⟨hx, hc'⟩ := hg.ofBracketed hc.next hi
  exact ⟨.mk trivial (List.forall_mem_singleton.2 hx), hc'⟩

theorem ofSymbolOrCall (hg : g.Words P D N) (hc : c.All P) (h : symbolOrCall g c = .ok (x, c')) :
    Worded D N x ∧ c'.All P := by
  cases symbolOrCall_eq_ok.1 h with
  | call named _ _ inside =>
    obtain ⟨hname, hn⟩ := hg.yields.ofSymbolName hc named
    obtain ⟨ha, hc'⟩ := hg.arguments hn.next inside
    exact ⟨.mk hname ha, hc'⟩
  | symbol named _ =>
    obtain ⟨hname, hn⟩ := hg.yields.ofSymbolName hc named
    exact ⟨worded_symbol hname, hn⟩

theorem ofOperand (hg : g.Words P D N) (hc : c.All P) {allowSymbol : Bool}
    (h : operand g allowSymbol c = .ok (x, c')) : Worded D N x ∧ c'.All P := by
  cases operand_eq_ok.1 h with
  | braced _ inside => exact hg.ofBracketed hc.next inside
  | digit taken =>
    obtain ⟨hdigit, hc'⟩ := hg.yields.ofDigit hc taken
    exact ⟨worded_number hdigit, hc'⟩
  | symbol _ here => exact ⟨worded_symbol (hg.yields.ofWord hc here), hc.next⟩
  | infinity => exact ⟨worded_infinity, hc.next⟩

theorem ofOperands (hg : g.Words P D N) (hc : c.All P) {allow allow' : Bool} {y : Formula}
    {middle : Cursor} (h : operand g allow c = .ok (x, middle))
    (h' : operand g allow' middle = .ok (y, c')) : (∀ z ∈ [x, y], Worded D N z) ∧ c'.All P := by
  obtain ⟨hx, hm⟩ := hg.ofOperand hc h
  obtain ⟨hy, hc'⟩ := hg.ofOperand hm h'
  exact ⟨by simp [hx, hy], hc'⟩

theorem ofLogBase (hg : g.Words P D N) (hc : c.All P) {base : Option Formula}
    (h : logBase g f c = .ok (base, c')) : (∀ x ∈ base, Worded D N x) ∧ c'.All P := by
  cases logBase_eq_ok.1 h with
  | written _ _ below =>
    obtain ⟨hb, hc'⟩ := hg.ofOperand hc.next below
    exact ⟨by simpa using hb, hc'⟩
  | absent => exact ⟨by simp, hc⟩

theorem ofRaise (hx : Worded D N x) : ∀ y ∈ (raise f x).2, Worded D N y := by
  unfold raise
  split
  · split <;> simp [hx]
  · simpa using hx

theorem ofFunctionExponent (hg : g.Words P D N) (hc : c.All P) {r : Builtin × Option Formula}
    (h : functionExponent g f c = .ok (r, c')) : (∀ x ∈ r.2, Worded D N x) ∧ c'.All P := by
  cases functionExponent_eq_ok.1 h with
  | written _ above =>
    obtain ⟨hx, hc'⟩ := hg.exponent hc.next above
    exact ⟨ofRaise hx, hc'⟩
  | absent => exact ⟨by simp, hc⟩

theorem ofFunctionArguments (hg : g.Words P D N) (hc : c.All P) {r : List Formula × Bool}
    (h : functionArguments g f mode c = .ok (r, c')) : (∀ x ∈ r.1, Worded D N x) ∧ c'.All P := by
  cases functionArguments_eq_ok.1 h with
  | pair _ left right => exact hg.ofOperands hc left right
  | delimited _ _ _ inside => exact hg.arguments hc.next inside
  | bare _ _ _ follows =>
    obtain ⟨hx, hc'⟩ := hg.signedTerm hc follows
    exact ⟨by simpa using hx, hc'⟩

theorem ofApplication (hg : g.Words P D N) (hc : c.All P)
    (h : application g f mode c = .ok (x, c')) : Worded D N x ∧ c'.All P := by
  obtain ⟨base, c₁, f', power, c₂, args, delimited, hb, hp, ha, rfl⟩ := application_eq_ok.1 h
  obtain ⟨hb, hc⟩ := hg.ofLogBase hc hb
  obtain ⟨hp, hc⟩ := hg.ofFunctionExponent hc hp
  obtain ⟨ha, hc⟩ := hg.ofFunctionArguments hc ha
  have hall : ∀ y ∈ args ++ base.toList, Worded D N y :=
    List.forall_mem_append.2 ⟨ha, fun y hy => hb y (Option.mem_toList.1 hy)⟩
  cases power with
  | none => exact ⟨.mk trivial hall, hc⟩
  | some e => exact ⟨.mk trivial (List.forall_mem_cons.2 ⟨hp e rfl, hall⟩), hc⟩

theorem ofRoot (hg : g.Words P D N) (hc : c.All P) (h : root g c = .ok (x, c')) :
    Worded D N x ∧ c'.All P := by
  cases root_eq_ok.1 h with
  | indexed _ inside under =>
    obtain ⟨hi, hm⟩ := hg.ofBracketed hc.next inside
    obtain ⟨hx, hc'⟩ := hg.ofOperand hm under
    exact ⟨.mk trivial (by simp [Formula.parts, hi, hx]), hc'⟩
  | plain _ under =>
    obtain ⟨hx, hc'⟩ := hg.ofOperand hc under
    exact ⟨.mk trivial (List.forall_mem_singleton.2 hx), hc'⟩

theorem ofFraction (hg : g.Words P D N) (hc : c.All P) (h : fraction g c = .ok (x, c')) :
    Worded D N x ∧ c'.All P := by
  obtain ⟨top, middle, bottom, ht, hb, rfl⟩ := fraction_eq_ok.1 h
  obtain ⟨hall, hc'⟩ := hg.ofOperands hc ht hb
  exact ⟨.mk trivial hall, hc'⟩

theorem ofBinomial (hg : g.Words P D N) (hc : c.All P) (h : binomial g c = .ok (x, c')) :
    Worded D N x ∧ c'.All P := by
  obtain ⟨top, middle, bottom, ht, hb, rfl⟩ := binomial_eq_ok.1 h
  obtain ⟨hall, hc'⟩ := hg.ofOperands hc ht hb
  exact ⟨.mk trivial hall, hc'⟩

theorem ofBars (hg : g.Words P D N) (hc : c.All P) (h : bars g c = .ok (x, c')) :
    Worded D N x ∧ c'.All P := by
  cases bars_eq_ok.1 h with
  | absolute inside _ | ket inside _ =>
    obtain ⟨hx, hc'⟩ := hg.sum hc inside
    exact ⟨.mk trivial (List.forall_mem_singleton.2 hx), hc'.next⟩

theorem ofAngle (hg : g.Words P D N) (hc : c.All P) (h : angle g c = .ok (x, c')) :
    Worded D N x ∧ c'.All P := by
  cases angle_eq_ok.1 h with
  | innerProduct left _ _ right _ =>
    obtain ⟨hl, hm⟩ := hg.sum hc left
    obtain ⟨hr, hc'⟩ := hg.sum hm.next right
    exact ⟨.mk trivial (by simp [Formula.parts, hl, hr]), hc'.next⟩
  | bra left _ _ =>
    obtain ⟨hl, hm⟩ := hg.sum hc left
    exact ⟨.mk trivial (List.forall_mem_singleton.2 hl), hm.next⟩

theorem ofDifferential {isPartial : Bool} (hy : Token.Yields P D N) (hc : c.All P)
    (h : differential isPartial c = .ok (x, c')) : Worded D N x ∧ c'.All P := by
  cases differential_eq_ok.1 h with
  | named written =>
    obtain ⟨hname, hc'⟩ := hy.ofSymbolName hc written
    exact ⟨.mk hname (List.forall_mem_nil _), hc'⟩
  | bare => exact ⟨.mk trivial (List.forall_mem_nil _), hc⟩

theorem ofIndexBinding (hg : g.Words P D N) (hc : c.All P) {r : String × Formula}
    (h : indexBinding g c = .ok (r, c')) : (N r.1 ∧ Worded D N r.2) ∧ c'.All P := by
  obtain ⟨-, name, after, lower, named, -, inside, rfl⟩ := indexBinding_eq_ok.1 h
  obtain ⟨hname, hn⟩ := hg.yields.ofSymbolName hc.next named
  obtain ⟨hl, hc'⟩ := hg.ofBracketed hn.next inside
  exact ⟨⟨hname, hl⟩, hc'⟩

theorem ofAggregateBound (hg : g.Words P D N) (hc : c.All P)
    {bounds r : Option (String × Formula) × Option Formula}
    (hb : (∀ b ∈ bounds.1, N b.1 ∧ Worded D N b.2) ∧ ∀ b ∈ bounds.2, Worded D N b)
    (h : aggregateBound g bounds c = .ok (r, c')) :
    ((∀ b ∈ r.1, N b.1 ∧ Worded D N b.2) ∧ ∀ b ∈ r.2, Worded D N b) ∧ c'.All P :=
  BoundStep.holds (fun _ _ h => hg.ofIndexBinding hc.next h) (fun _ _ h => hg.ofOperand hc.next h)
    hb hc (aggregateBound_eq_ok.1 h)

theorem ofAggregate (hg : g.Words P D N) (hc : c.All P) {kind : Aggregate}
    (h : aggregate g kind mode c = .ok (x, c')) : Worded D N x ∧ c'.All P := by
  obtain ⟨bounds, c₁, name, lower, upper, c₂, body, h₁, h₂, hb, rfl⟩ := aggregate_eq_ok.1 h
  obtain ⟨hbounds, hc⟩ := hg.ofAggregateBound hc (by simp) h₁
  obtain ⟨⟨hl, hu⟩, hc⟩ := hg.ofAggregateBound hc hbounds h₂
  obtain ⟨hb, hc⟩ := hg.signedTerm hc hb
  obtain ⟨hname, hl⟩ := hl _ rfl
  exact ⟨.mk hname (by simp [Formula.parts, hl, hu _ rfl, hb]), hc⟩

theorem ofIntegralLimit (hg : g.Words P D N) (hc : c.All P) (h : integralLimit g c = .ok (x, c')) :
    Worded D N x ∧ c'.All P := by
  cases integralLimit_eq_ok.1 h with
  | negated _ follows =>
    obtain ⟨hx, hc'⟩ := hg.ofOperand hc.next follows
    exact ⟨.mk trivial (List.forall_mem_singleton.2 hx), hc'⟩
  | plain _ here => exact hg.ofOperand hc here

theorem ofIntegralBody (hg : g.Words P D N) (hc : c.All P)
    (h : integralBody g mode c = .ok (x, c')) : Worded D N x ∧ c'.All P := by
  cases integralBody_eq_ok.1 h with
  | differentialFirst _ first _ follows =>
    obtain ⟨hd, hm⟩ := ofDifferential hg.yields hc.next first
    obtain ⟨hx, hc'⟩ := hg.signedTerm hm follows
    exact ⟨.mk trivial (by simp [Formula.parts, hd, hx]), hc'⟩
  | differentialOnly _ first _ => exact ofDifferential hg.yields hc.next first
  | term _ here => exact hg.signedTerm hc here

theorem ofIntegralBound (hg : g.Words P D N) (hc : c.All P)
    {bounds r : Option Formula × Option Formula}
    (hb : (∀ b ∈ bounds.1, Worded D N b) ∧ ∀ b ∈ bounds.2, Worded D N b)
    (h : integralBound g bounds c = .ok (r, c')) :
    ((∀ b ∈ r.1, Worded D N b) ∧ ∀ b ∈ r.2, Worded D N b) ∧ c'.All P :=
  BoundStep.holds (fun _ _ h => hg.ofIntegralLimit hc.next h)
    (fun _ _ h => hg.ofIntegralLimit hc.next h) hb hc (integralBound_eq_ok.1 h)

theorem ofIntegral (hg : g.Words P D N) (hc : c.All P) (h : integral g mode c = .ok (x, c')) :
    Worded D N x ∧ c'.All P := by
  obtain ⟨bounds, c₁, lower, upper, c₂, body, h₁, h₂, hb, rfl⟩ := integral_eq_ok.1 h
  obtain ⟨hbounds, hc⟩ := hg.ofIntegralBound hc (by simp) h₁
  obtain ⟨⟨hl, hu⟩, hc⟩ := hg.ofIntegralBound hc hbounds h₂
  obtain ⟨hb, hc⟩ := hg.ofIntegralBody hc hb
  refine ⟨.mk trivial fun y hy => ?_, hc⟩
  simp only [Formula.parts, List.mem_append, Option.mem_toList, List.mem_singleton] at hy
  obtain hy | hy | rfl := hy
  · exact hl y hy
  · exact hu y hy
  · exact hb

theorem ofSide (hc : c.All P) {s : Option Side} (h : side c = .ok (s, c')) : c'.All P := by
  cases side_eq_ok.1 h with
  | braced => exact hc.next.next.next.next
  | raised => exact hc.next.next
  | emptyCaret | bare => exact hc.next
  | absent => exact hc

theorem ofLimit (hg : g.Words P D N) (hc : c.All P) (h : limit g mode c = .ok (x, c')) :
    Worded D N x ∧ c'.All P := by
  obtain ⟨name, c₁, approach, c₂, s, c₃, body, -, -, named, -, target, hs, -, hb, rfl⟩ :=
    limit_eq_ok.1 h
  obtain ⟨hname, hc⟩ := hg.yields.ofSymbolName hc.next.next named
  obtain ⟨ha, hc⟩ := hg.sum hc.next target
  obtain ⟨hb, hc⟩ := hg.signedTerm (ofSide hc hs).next hb
  exact ⟨.mk hname (by simp [Formula.parts, ha, hb]), hc⟩

theorem ofAtom (hg : g.Words P D N) (hc : c.All P) (h : atom g mode c = .ok (x, c')) :
    Worded D N x ∧ c'.All P := by
  cases atom_eq_ok.1 h with
  | number here => exact ⟨worded_number (hg.yields.ofNumber hc here), hc.next⟩
  | symbolOrCall _ read => exact hg.ofSymbolOrCall hc read
  | infinity => exact ⟨worded_infinity, hc.next⟩
  | floor _ inside | ceil _ inside =>
    obtain ⟨hx, hc'⟩ := hg.ofBracketed hc.next inside
    exact ⟨.mk trivial (List.forall_mem_singleton.2 hx), hc'⟩
  | angle _ inside => exact hg.ofAngle hc.next inside
  | group _ _ inside => exact hg.ofGroup hc inside
  | bars _ _ inside => exact hg.ofBars hc.next inside
  | application _ read => exact hg.ofApplication hc.next read
  | root _ read => exact hg.ofRoot hc.next read
  | fraction _ read => exact hg.ofFraction hc.next read
  | binomial _ read => exact hg.ofBinomial hc.next read
  | sum _ read | product _ read => exact hg.ofAggregate hc.next read
  | integral _ read => exact hg.ofIntegral hc.next read
  | limit _ read => exact hg.ofLimit hc.next read
  | differential _ read => exact ofDifferential hg.yields hc.next read

theorem ofFactor (hg : g.Words P D N) (hc : c.All P) (h : factor g mode c = .ok (x, c')) :
    Worded D N x ∧ c'.All P := by
  obtain ⟨base, after, ha, ht⟩ := factor_eq_ok.1 h
  obtain ⟨hb, hm⟩ := hg.ofAtom hc ha
  exact hg.factorTail hm hb ht

theorem worded_over {base : Formula} {e : Exponent} (hb : Worded D N base) (he : e.Worded D N) :
    Worded D N (e.over base) := by
  cases e with
  | value y => exact .mk trivial (List.forall_mem_cons.2 ⟨hb, List.forall_mem_singleton.2 he⟩)
  | dagger | prime => exact .mk trivial (List.forall_mem_singleton.2 hb)

theorem ofFactorTail (hg : g.Words P D N) {base : Formula} (hc : c.All P) (hb : Worded D N base)
    (h : Grammar.factorTail g mode base c = .ok (x, c')) : Worded D N x ∧ c'.All P := by
  cases factorTail_eq_ok.1 h with
  | side | done => exact ⟨hb, hc⟩
  | exponent _ _ above more =>
    obtain ⟨he, hm⟩ := hg.exponent hc.next above
    exact hg.factorTail hm (worded_over hb he) more
  | factorial _ more | primed _ more =>
    refine hg.factorTail hc.next ?_ more
    exact .mk trivial (List.forall_mem_singleton.2 hb)

theorem ofExponent (hg : g.Words P D N) {e : Exponent} (hc : c.All P)
    (h : Grammar.exponent g c = .ok (e, c')) : e.Worded D N ∧ c'.All P := by
  cases exponent_eq_ok.1 h with
  | marker _ all =>
    refine ⟨?_, hc.skip 3⟩
    rcases (bracedMarker_eq_some.1 all).2 with ⟨-, rfl⟩ | ⟨-, rfl⟩ <;> trivial
  | braced _ _ inside => exact hg.ofBracketed hc.next inside
  | dagger | prime => exact ⟨trivial, hc.next⟩
  | negated _ follows =>
    obtain ⟨hx, hc'⟩ := hg.exponent hc.next follows
    exact ⟨.mk trivial (List.forall_mem_singleton.2 hx), hc'⟩
  | digit taken =>
    obtain ⟨hdigit, hc'⟩ := hg.yields.ofDigit hc taken
    exact ⟨worded_number hdigit, hc'⟩
  | symbol here => exact ⟨worded_symbol (hg.yields.ofWord hc here), hc.next⟩
  | infinity => exact ⟨worded_infinity, hc.next⟩
  | group _ inside => exact hg.ofGroup hc inside
  | fraction _ read => exact hg.ofFraction hc.next read
  | binomial _ read => exact hg.ofBinomial hc.next read
  | root _ read => exact hg.ofRoot hc.next read

theorem ofSigned {signed bare : Cursor → Attempt (Formula × Cursor)}
    (hs : ∀ {c c' : Cursor} {x : Formula}, c.All P → signed c = .ok (x, c') →
      Worded D N x ∧ c'.All P)
    (hb : ∀ {c c' : Cursor} {x : Formula}, c.All P → bare c = .ok (x, c') →
      Worded D N x ∧ c'.All P)
    (hc : c.All P) (h : SignedStep signed bare c x c') : Worded D N x ∧ c'.All P := by
  cases h with
  | minus _ follows =>
    obtain ⟨hx, hc'⟩ := hs hc.next follows
    exact ⟨.mk trivial (List.forall_mem_singleton.2 hx), hc'⟩
  | plus _ follows => exact hs hc.next follows
  | bare _ _ here => exact hb hc here

theorem ofTerm (hg : g.Words P D N) (hc : c.All P) (h : term g mode c = .ok (x, c')) :
    Worded D N x ∧ c'.All P := by
  obtain ⟨left, after, hf, ht⟩ := term_eq_ok.1 h
  obtain ⟨hl, hm⟩ := hg.ofFactor hc hf
  exact hg.termTail hm hl ht

theorem ofTermTail (hg : g.Words P D N) {left : Formula} (hc : c.All P) (hl : Worded D N left)
    (h : Grammar.termTail g mode left c = .ok (x, c')) : Worded D N x ∧ c'.All P := by
  cases termTail_eq_ok.1 h with
  | differential | bareArgument | done => exact ⟨hl, hc⟩
  | explicit _ _ _ follows more =>
    obtain ⟨hr, hm⟩ := hg.signedFactor hc.next follows
    refine hg.termTail hm ?_ more
    exact .mk trivial (by simp [Formula.parts, hl, hr])
  | juxtaposed _ _ _ follows more =>
    obtain ⟨hr, hm⟩ := hg.ofFactor hc follows
    refine hg.termTail hm ?_ more
    exact .mk trivial (by simp [Formula.parts, hl, hr])

theorem ofSum (hg : g.Words P D N) (hc : c.All P) (h : Grammar.sum g mode c = .ok (x, c')) :
    Worded D N x ∧ c'.All P := by
  obtain ⟨left, after, hs, ht⟩ := sum_eq_ok.1 h
  obtain ⟨hl, hm⟩ := hg.signedTerm hc hs
  exact hg.sumTail hm hl ht

theorem ofSumTail (hg : g.Words P D N) {left : Formula} (hc : c.All P) (hl : Worded D N left)
    (h : Grammar.sumTail g mode left c = .ok (x, c')) : Worded D N x ∧ c'.All P := by
  cases sumTail_eq_ok.1 h with
  | side | done => exact ⟨hl, hc⟩
  | more _ _ follows more =>
    obtain ⟨hr, hm⟩ := hg.signedTerm hc.next follows
    refine hg.sumTail hm ?_ more
    exact .mk trivial (by simp [Formula.parts, hl, hr])

theorem ofArguments (hg : g.Words P D N) {xs : List Formula} (hc : c.All P)
    (h : Grammar.arguments g d c = .ok (xs, c')) : (∀ x ∈ xs, Worded D N x) ∧ c'.All P := by
  cases arguments_eq_ok.1 h with
  | more first _ follows =>
    obtain ⟨hx, hm⟩ := hg.sum hc first
    obtain ⟨hr, hc'⟩ := hg.arguments hm.next follows
    exact ⟨List.forall_mem_cons.2 ⟨hx, hr⟩, hc'⟩
  | last first _ =>
    obtain ⟨hx, hm⟩ := hg.sum hc first
    exact ⟨List.forall_mem_singleton.2 hx, hm.next⟩

theorem deeper (hg : g.Words P D N) : g.deeper.Words P D N where
  yields := hg.yields
  sum := hg.ofSum
  sumTail := hg.ofSumTail
  signedTerm hc h := ofSigned hg.signedTerm hg.ofTerm hc (signedTerm_eq_ok.1 h)
  termTail := hg.ofTermTail
  signedFactor hc h := ofSigned hg.signedFactor hg.ofFactor hc (signedFactor_eq_ok.1 h)
  factorTail := hg.ofFactorTail
  exponent := hg.ofExponent
  arguments := hg.ofArguments

end Rules.Words

theorem words_rules (hy : Token.Yields P D N) (declared : List String) (depth : Nat) :
    (rules declared depth).Words P D N := by
  induction depth with
  | zero => exact words_exhausted hy declared
  | succ depth ih => exact ih.deeper

theorem worded_member {g : Rules} (hg : g.Words P D N) {x : Formula} (hc : c.All P)
    (h : member g c = .ok (x, c')) : Worded D N x := by
  cases member_eq_ok.1 h with
  | relation first _ second _ =>
    obtain ⟨hl, hm⟩ := hg.sum hc first
    obtain ⟨hr, -⟩ := hg.sum hm.next second
    exact .mk trivial (by simp [Formula.parts, hl, hr])
  | expression only _ => exact (hg.sum hc only).1

end Grammar

/-- A formula of tokens with `P` has numbers and names as the tokens yield them. -/
theorem Formula.worded_of_ofTokens {P : Token → Prop} {D N : String → Prop}
    (hy : Token.Yields P D N) {declared : List String} {tokens : List Token} {limit : Nat}
    {x : Formula} (ht : ∀ t ∈ tokens, P t) (h : Formula.ofTokens declared tokens limit = .ok x) :
    x.Worded D N := by
  obtain ⟨last, hm, -⟩ := Formula.ofTokens_eq_ok.1 h
  have hc : (Cursor.start tokens limit).All P := ht
  exact Grammar.worded_member (Grammar.words_rules hy declared _) hc hm

end AnswerKey

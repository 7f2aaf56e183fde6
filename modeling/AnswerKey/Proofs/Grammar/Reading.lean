import AnswerKey.Proofs.Grammar.Passage
import AnswerKey.Proofs.Grammar.Steps.Term

/-! What every reading ensures. The formula that it builds has no relation in
it and calls none but callable names, and the tokens that it takes are passed
over in order, with their curly braces in pairs. -/
namespace AnswerKey

/-- Formulas of a reading: no relation stands inside, and every called name is
callable. -/
inductive Formula.Built (declared : List String) : Formula → Prop
  | number (digits : String) : Built declared (.number digits)
  | symbol (name : String) : Built declared (.symbol name)
  | infinity : Built declared .infinity
  | binary {op : Operation} {l r : Formula} (hl : Built declared l) (hr : Built declared r) :
      Built declared (.binary op l r)
  | juxtaposed {a : Adjacency} {l r : Formula} (hl : Built declared l) (hr : Built declared r) :
      Built declared (.juxtaposed a l r)
  | negated {x : Formula} (hx : Built declared x) : Built declared (.negated x)
  | power {b e : Formula} (hb : Built declared b) (he : Built declared e) :
      Built declared (.power b e)
  | dagger {x : Formula} (hx : Built declared x) : Built declared (.dagger x)
  | group {x : Formula} (hx : Built declared x) : Built declared (.group x)
  | fraction {n d : Formula} (hn : Built declared n) (hd : Built declared d) :
      Built declared (.fraction n d)
  | binomial {t b : Formula} (ht : Built declared t) (hb : Built declared b) :
      Built declared (.binomial t b)
  | root {index : Option Formula} {x : Formula} (hi : ∀ i ∈ index, Built declared i)
      (hx : Built declared x) : Built declared (.root index x)
  | apply {f : Builtin} {args : List Formula} {delimited : Bool}
      (ha : ∀ x ∈ args, Built declared x) : Built declared (.apply f args delimited)
  | call {name : String} {args : List Formula} (hn : Grammar.callable declared name = true)
      (ha : ∀ x ∈ args, Built declared x) : Built declared (.call name args)
  | powered {f : Builtin} {e : Formula} {args : List Formula} (he : Built declared e)
      (ha : ∀ x ∈ args, Built declared x) : Built declared (.powered f e args)
  | factorial {x : Formula} (hx : Built declared x) : Built declared (.factorial x)
  | primed {x : Formula} (hx : Built declared x) : Built declared (.primed x)
  | differential (name : Option String) (isPartial : Bool) :
      Built declared (.differential name isPartial)
  | aggregate {kind : Aggregate} {name : String} {lower upper body : Formula}
      (hl : Built declared lower) (hu : Built declared upper) (hb : Built declared body) :
      Built declared (.aggregate kind name lower upper body)
  | integral {lower upper : Option Formula} {body : Formula} (hl : ∀ x ∈ lower, Built declared x)
      (hu : ∀ x ∈ upper, Built declared x) (hb : Built declared body) :
      Built declared (.integral lower upper body)
  | limit {name : String} {approach body : Formula} {side : Option Side}
      (ha : Built declared approach) (hb : Built declared body) :
      Built declared (.limit name approach side body)

/-- Members of a reading: a relation may stand around the whole. -/
inductive Formula.BuiltMember (declared : List String) : Formula → Prop
  | relation {r : Relation} {left right : Formula} (hl : Built declared left)
      (hr : Built declared right) : BuiltMember declared (.relation r left right)
  | expression {x : Formula} (hx : Built declared x) : BuiltMember declared x

namespace Grammar

open Formula (Built)
open Cursor (Passes)

def Exponent.Built (declared : List String) : Exponent → Prop
  | .value x => x.Built declared
  | .dagger | .prime => True

/-- What the readings of all rules ensure. -/
structure Rules.Sound (g : Rules) : Prop where
  sum {mode : Mode} {c c' : Cursor} {x : Formula} (h : g.sum mode c = .ok (x, c')) :
    Built g.declared x ∧ Passes c c'
  sumTail {mode : Mode} {left x : Formula} {c c' : Cursor}
    (h : g.sumTail mode left c = .ok (x, c')) (hl : Built g.declared left) :
    Built g.declared x ∧ Passes c c'
  signedTerm {mode : Mode} {c c' : Cursor} {x : Formula}
    (h : g.signedTerm mode c = .ok (x, c')) : Built g.declared x ∧ Passes c c'
  termTail {mode : Mode} {left x : Formula} {c c' : Cursor}
    (h : g.termTail mode left c = .ok (x, c')) (hl : Built g.declared left) :
    Built g.declared x ∧ Passes c c'
  signedFactor {mode : Mode} {c c' : Cursor} {x : Formula}
    (h : g.signedFactor mode c = .ok (x, c')) : Built g.declared x ∧ Passes c c'
  factorTail {mode : Mode} {base x : Formula} {c c' : Cursor}
    (h : g.factorTail mode base c = .ok (x, c')) (hb : Built g.declared base) :
    Built g.declared x ∧ Passes c c'
  exponent {c c' : Cursor} {e : Exponent} (h : g.exponent c = .ok (e, c')) :
    e.Built g.declared ∧ Passes c c'
  arguments {d : Delimiter} {c c' : Cursor} {xs : List Formula}
    (h : g.arguments d c = .ok (xs, c')) :
    (∀ x ∈ xs, Built g.declared x) ∧
      ∃ last, Passes c last ∧ last.kind = some (.closing d) ∧ last.next = c'

theorem sound_exhausted (declared : List String) : (Rules.exhausted declared).Sound where
  sum h := nomatch h
  sumTail h := nomatch h
  signedTerm h := nomatch h
  termTail h := nomatch h
  signedFactor h := nomatch h
  factorTail h := nomatch h
  exponent h := nomatch h
  arguments h := nomatch h

namespace Rules.Sound

variable {g : Rules} {mode : Mode} {c c' : Cursor} {x : Formula} {d : Delimiter} {f : Builtin}

theorem ofBracketed (hg : g.Sound) (h : bracketed g d c = .ok (x, c')) :
    Built g.declared x ∧ ∃ last, Passes c last ∧ last.kind = some (.closing d) ∧ last.next = c' := by
  obtain ⟨last, hs, hk, hn⟩ := bracketed_eq_ok.1 h
  exact ⟨(hg.sum hs).1, last, (hg.sum hs).2, hk, hn⟩

theorem ofEnclosed (hg : g.Sound) (opened : c.kind = some (.opening d))
    (h : bracketed g d c.next = .ok (x, c')) : Built g.declared x ∧ Passes c c' := by
  obtain ⟨hx, last, hp, hk, rfl⟩ := hg.ofBracketed h
  exact ⟨hx, .enclosed opened hp hk⟩

theorem ofGroup (hg : g.Sound) (opened : c.kind = some (.opening d))
    (h : group g d c = .ok (x, c')) : Built g.declared x ∧ Passes c c' := by
  obtain ⟨inner, hi, rfl⟩ := group_eq_ok.1 h
  obtain ⟨hx, hp⟩ := hg.ofEnclosed opened hi
  exact ⟨.group hx, hp⟩

theorem ofArguments (hg : g.Sound) {xs : List Formula} (opened : c.kind = some (.opening d))
    (h : g.arguments d c.next = .ok (xs, c')) : (∀ x ∈ xs, Built g.declared x) ∧ Passes c c' := by
  obtain ⟨hx, last, hp, hk, rfl⟩ := hg.arguments h
  exact ⟨hx, .enclosed opened hp hk⟩

theorem ofSymbolOrCall (hg : g.Sound) (h : symbolOrCall g c = .ok (x, c')) :
    Built g.declared x ∧ Passes c c' := by
  cases symbolOrCall_eq_ok.1 h with
  | call named opened allowed inside =>
    obtain ⟨ha, hp⟩ := hg.ofArguments opened inside
    exact ⟨.call allowed ha, (passes_of_symbolName named).trans hp⟩
  | symbol named _ => exact ⟨.symbol _, passes_of_symbolName named⟩

theorem ofOperand (hg : g.Sound) {allowSymbol : Bool} (h : operand g allowSymbol c = .ok (x, c')) :
    Built g.declared x ∧ Passes c c' := by
  cases operand_eq_ok.1 h with
  | braced opened inside => exact hg.ofEnclosed opened inside
  | digit taken => exact ⟨.number _, .taking taken⟩
  | symbol _ here => exact ⟨.symbol _, .next here rfl⟩
  | infinity _ here => exact ⟨.infinity, .next here rfl⟩

theorem ofLogBase (hg : g.Sound) {base : Option Formula} (h : logBase g f c = .ok (base, c')) :
    (∀ x ∈ base, Built g.declared x) ∧ Passes c c' := by
  cases logBase_eq_ok.1 h with
  | written _ mark below =>
    obtain ⟨hb, hp⟩ := hg.ofOperand below
    exact ⟨by simpa using hb, .step mark rfl hp⟩
  | absent _ => exact ⟨by simp, .refl _⟩

theorem ofRaise {declared : List String} (hx : Built declared x) :
    ∀ y ∈ (raise f x).2, Built declared y := by
  unfold raise
  split
  · split <;> simp [hx]
  · simpa using hx

theorem ofFunctionExponent (hg : g.Sound) {r : Builtin × Option Formula}
    (h : functionExponent g f c = .ok (r, c')) :
    (∀ x ∈ r.2, Built g.declared x) ∧ Passes c c' := by
  cases functionExponent_eq_ok.1 h with
  | written mark above =>
    obtain ⟨hx, hp⟩ := hg.exponent above
    exact ⟨ofRaise hx, .step mark rfl hp⟩
  | absent _ => exact ⟨by simp, .refl _⟩

theorem ofFunctionArguments (hg : g.Sound) {r : List Formula × Bool}
    (h : functionArguments g f mode c = .ok (r, c')) :
    (∀ x ∈ r.1, Built g.declared x) ∧ Passes c c' := by
  cases functionArguments_eq_ok.1 h with
  | pair _ left right =>
    obtain ⟨hl, hp⟩ := hg.ofOperand left
    obtain ⟨hr, hq⟩ := hg.ofOperand right
    exact ⟨by simp [hl, hr], hp.trans hq⟩
  | delimited _ _ opened inside => exact hg.ofArguments opened inside
  | bare _ _ _ follows =>
    obtain ⟨hx, hp⟩ := hg.signedTerm follows
    exact ⟨by simpa using hx, hp⟩

theorem ofApplication (hg : g.Sound) (h : application g f mode c = .ok (x, c')) :
    Built g.declared x ∧ Passes c c' := by
  obtain ⟨base, c₁, f', power, c₂, args, delimited, hb, hp, ha, rfl⟩ := application_eq_ok.1 h
  obtain ⟨hb, hbp⟩ := hg.ofLogBase hb
  obtain ⟨hp, hpp⟩ := hg.ofFunctionExponent hp
  obtain ⟨ha, hap⟩ := hg.ofFunctionArguments ha
  refine ⟨?_, hbp.trans (hpp.trans hap)⟩
  have hall : ∀ y ∈ args ++ base.toList, Built g.declared y := by
    intro y hy
    rcases List.mem_append.1 hy with hy | hy
    · exact ha y hy
    · exact hb y (Option.mem_toList.1 hy)
  cases power with
  | none => exact .apply hall
  | some e => exact .powered (hp e rfl) hall

theorem ofRoot (hg : g.Sound) (h : root g c = .ok (x, c')) : Built g.declared x ∧ Passes c c' := by
  cases root_eq_ok.1 h with
  | indexed opened inside under =>
    obtain ⟨hi, hp⟩ := hg.ofEnclosed opened inside
    obtain ⟨hx, hq⟩ := hg.ofOperand under
    exact ⟨.root (by simpa using hi) hx, hp.trans hq⟩
  | plain _ under =>
    obtain ⟨hx, hp⟩ := hg.ofOperand under
    exact ⟨.root (by simp) hx, hp⟩

theorem ofFraction (hg : g.Sound) (h : fraction g c = .ok (x, c')) :
    Built g.declared x ∧ Passes c c' := by
  obtain ⟨top, middle, bottom, ht, hb, rfl⟩ := fraction_eq_ok.1 h
  obtain ⟨ht, hp⟩ := hg.ofOperand ht
  obtain ⟨hb, hq⟩ := hg.ofOperand hb
  exact ⟨.fraction ht hb, hp.trans hq⟩

theorem ofBinomial (hg : g.Sound) (h : binomial g c = .ok (x, c')) :
    Built g.declared x ∧ Passes c c' := by
  obtain ⟨top, middle, bottom, ht, hb, rfl⟩ := binomial_eq_ok.1 h
  obtain ⟨ht, hp⟩ := hg.ofOperand ht
  obtain ⟨hb, hq⟩ := hg.ofOperand hb
  exact ⟨.binomial ht hb, hp.trans hq⟩

theorem ofBars (hg : g.Sound) (h : bars g c = .ok (x, c')) : Built g.declared x ∧ Passes c c' := by
  cases bars_eq_ok.1 h with
  | absolute inside closed | ket inside closed =>
    obtain ⟨hx, hp⟩ := hg.sum inside
    exact ⟨.apply (by simpa using hx), hp.trans (.next closed rfl)⟩

theorem ofAngle (hg : g.Sound) (h : angle g c = .ok (x, c')) :
    Built g.declared x ∧ Passes c c' := by
  cases angle_eq_ok.1 h with
  | innerProduct left bar _ right closed =>
    obtain ⟨hl, hp⟩ := hg.sum left
    obtain ⟨hr, hq⟩ := hg.sum right
    exact ⟨.apply (by simp [hl, hr]), hp.trans (.step bar rfl (hq.trans (.next closed rfl)))⟩
  | bra left bar _ =>
    obtain ⟨hl, hp⟩ := hg.sum left
    exact ⟨.apply (by simpa using hl), hp.trans (.next bar rfl)⟩

theorem ofDifferential {declared : List String} {isPartial : Bool}
    (h : differential isPartial c = .ok (x, c')) : Built declared x ∧ Passes c c' := by
  cases differential_eq_ok.1 h with
  | named written => exact ⟨.differential _ _, passes_of_symbolName written⟩
  | bare _ => exact ⟨.differential _ _, .refl _⟩

theorem ofIndexBinding (hg : g.Sound) {r : String × Formula} (h : indexBinding g c = .ok (r, c')) :
    Built g.declared r.2 ∧ Passes c c' := by
  obtain ⟨opened, name, after, lower, named, equal, inside, rfl⟩ := indexBinding_eq_ok.1 h
  obtain ⟨hl, last, hp, closed, rfl⟩ := hg.ofBracketed inside
  exact ⟨hl, .enclosed opened ((passes_of_symbolName named).trans (.step equal rfl hp)) closed⟩

theorem ofAggregateBound (hg : g.Sound) {bounds r : Option (String × Formula) × Option Formula}
    (h : aggregateBound g bounds c = .ok (r, c'))
    (hb : (∀ b ∈ bounds.1, Built g.declared b.2) ∧ ∀ b ∈ bounds.2, Built g.declared b) :
    ((∀ b ∈ r.1, Built g.declared b.2) ∧ ∀ b ∈ r.2, Built g.declared b) ∧ Passes c c' :=
  BoundStep.holds (fun mark _ below => (hg.ofIndexBinding below).imp_right (.step mark rfl))
    (fun mark _ above => (hg.ofOperand above).imp_right (.step mark rfl)) hb (.refl _)
    (aggregateBound_eq_ok.1 h)

theorem ofAggregate (hg : g.Sound) {kind : Aggregate} (h : aggregate g kind mode c = .ok (x, c')) :
    Built g.declared x ∧ Passes c c' := by
  obtain ⟨bounds, c₁, name, lower, upper, c₂, body, h₁, h₂, hb, rfl⟩ := aggregate_eq_ok.1 h
  obtain ⟨hbounds, hp⟩ := hg.ofAggregateBound h₁ (by simp)
  obtain ⟨⟨hl, hu⟩, hq⟩ := hg.ofAggregateBound h₂ hbounds
  obtain ⟨hb, hr⟩ := hg.signedTerm hb
  exact ⟨.aggregate (hl _ rfl) (hu _ rfl) hb, hp.trans (hq.trans hr)⟩

theorem ofIntegralLimit (hg : g.Sound) (h : integralLimit g c = .ok (x, c')) :
    Built g.declared x ∧ Passes c c' := by
  cases integralLimit_eq_ok.1 h with
  | negated sign follows =>
    obtain ⟨hx, hp⟩ := hg.ofOperand follows
    exact ⟨.negated hx, .step sign rfl hp⟩
  | plain _ here => exact hg.ofOperand here

theorem ofIntegralBound (hg : g.Sound) {bounds r : Option Formula × Option Formula}
    (h : integralBound g bounds c = .ok (r, c'))
    (hb : (∀ b ∈ bounds.1, Built g.declared b) ∧ ∀ b ∈ bounds.2, Built g.declared b) :
    ((∀ b ∈ r.1, Built g.declared b) ∧ ∀ b ∈ r.2, Built g.declared b) ∧ Passes c c' :=
  BoundStep.holds (fun mark _ below => (hg.ofIntegralLimit below).imp_right (.step mark rfl))
    (fun mark _ above => (hg.ofIntegralLimit above).imp_right (.step mark rfl)) hb (.refl _)
    (integralBound_eq_ok.1 h)

theorem ofIntegralBody (hg : g.Sound) (h : integralBody g mode c = .ok (x, c')) :
    Built g.declared x ∧ Passes c c' := by
  have step {isPartial : Bool} (mark : c.kind = some (differentialMark isPartial)) :
      Passes c c.next := .next mark (by cases isPartial <;> rfl)
  cases integralBody_eq_ok.1 h with
  | differentialFirst mark first _ follows =>
    obtain ⟨hd, hp⟩ := ofDifferential first
    obtain ⟨hx, hq⟩ := hg.signedTerm follows
    exact ⟨.juxtaposed hd hx, (step mark).trans (hp.trans hq)⟩
  | differentialOnly mark first _ =>
    obtain ⟨hd, hp⟩ := ofDifferential first
    exact ⟨hd, (step mark).trans hp⟩
  | term _ here => exact hg.signedTerm here

theorem ofIntegral (hg : g.Sound) (h : integral g mode c = .ok (x, c')) :
    Built g.declared x ∧ Passes c c' := by
  obtain ⟨bounds, c₁, lower, upper, c₂, body, h₁, h₂, hb, rfl⟩ := integral_eq_ok.1 h
  obtain ⟨hbounds, hp⟩ := hg.ofIntegralBound h₁ (by simp)
  obtain ⟨⟨hl, hu⟩, hq⟩ := hg.ofIntegralBound h₂ hbounds
  obtain ⟨hb, hr⟩ := hg.ofIntegralBody hb
  exact ⟨.integral hl hu hb, hp.trans (hq.trans hr)⟩

theorem isPlain_sideMark (s : Side) : (sideMark s).isPlain = true := by cases s <;> rfl

theorem ofSide {s : Option Side} (h : side c = .ok (s, c')) : Passes c c' := by
  cases side_eq_ok.1 h with
  | @braced s mark opened sign closed =>
    have inside := Passes.next sign (isPlain_sideMark s)
    exact .step mark rfl (.enclosed opened inside closed)
  | @raised s mark sign => exact .step mark rfl (.next sign (isPlain_sideMark s))
  | emptyCaret mark _ _ => exact .next mark rfl
  | @bare s sign _ => exact .next sign (isPlain_sideMark s)
  | absent _ _ => exact .refl _

theorem ofLimit (hg : g.Sound) (h : limit g mode c = .ok (x, c')) :
    Built g.declared x ∧ Passes c c' := by
  obtain ⟨name, c₁, approach, c₂, s, c₃, body, mark, opened, named, arrow, target, hs, closed,
    hb, rfl⟩ := limit_eq_ok.1 h
  obtain ⟨ha, hp⟩ := hg.sum target
  obtain ⟨hb, hq⟩ := hg.signedTerm hb
  have inside : Passes c.next.next c₃ :=
    (passes_of_symbolName named).trans (.step arrow rfl (hp.trans (ofSide hs)))
  exact ⟨.limit ha hb, .step mark rfl ((Passes.enclosed opened inside closed).trans hq)⟩

theorem ofAtom (hg : g.Sound) (h : atom g mode c = .ok (x, c')) :
    Built g.declared x ∧ Passes c c' := by
  have after {k : Token.Kind} (here : c.kind = some k) (plain : k.isPlain = true)
      (rest : Built g.declared x ∧ Passes c.next c') : Built g.declared x ∧ Passes c c' :=
    ⟨rest.1, .step here plain rest.2⟩
  cases atom_eq_ok.1 h with
  | number here => exact ⟨.number _, .next here rfl⟩
  | symbolOrCall _ read => exact hg.ofSymbolOrCall read
  | infinity here => exact ⟨.infinity, .next here rfl⟩
  | floor here inside | ceil here inside =>
    obtain ⟨hx, hp⟩ := hg.ofEnclosed here inside
    exact ⟨.apply (by simpa using hx), hp⟩
  | angle here inside => exact after here rfl (hg.ofAngle inside)
  | group here _ inside => exact hg.ofGroup here inside
  | bars here _ inside => exact after here rfl (hg.ofBars inside)
  | application here read => exact after here rfl (hg.ofApplication read)
  | root here read => exact after here rfl (hg.ofRoot read)
  | fraction here read => exact after here rfl (hg.ofFraction read)
  | binomial here read => exact after here rfl (hg.ofBinomial read)
  | sum here read | product here read => exact after here rfl (hg.ofAggregate read)
  | integral here read => exact after here rfl (hg.ofIntegral read)
  | limit here read => exact after here rfl (hg.ofLimit read)
  | @differential isPartial _ _ here read =>
    exact after here (by cases isPartial <;> rfl) (ofDifferential read)

theorem ofFactor (hg : g.Sound) (h : factor g mode c = .ok (x, c')) :
    Built g.declared x ∧ Passes c c' := by
  obtain ⟨base, after, ha, ht⟩ := factor_eq_ok.1 h
  obtain ⟨hb, hp⟩ := hg.ofAtom ha
  obtain ⟨hx, hq⟩ := hg.factorTail ht hb
  exact ⟨hx, hp.trans hq⟩

theorem built_over {declared : List String} {base : Formula} {e : Exponent}
    (hb : Built declared base) (he : e.Built declared) : Built declared (e.over base) := by
  cases e with
  | value y => exact .power hb he
  | dagger => exact .dagger hb
  | prime => exact .primed hb

theorem ofFactorTail (hg : g.Sound) {base : Formula} (h : Grammar.factorTail g mode base c = .ok (x, c'))
    (hb : Built g.declared base) : Built g.declared x ∧ Passes c c' := by
  cases factorTail_eq_ok.1 h with
  | side _ _ _ => exact ⟨hb, .refl _⟩
  | exponent mark _ above more =>
    obtain ⟨he, hp⟩ := hg.exponent above
    obtain ⟨hx, hq⟩ := hg.factorTail more (built_over hb he)
    exact ⟨hx, .step mark rfl (hp.trans hq)⟩
  | factorial mark more =>
    obtain ⟨hx, hp⟩ := hg.factorTail more (.factorial hb)
    exact ⟨hx, .step mark rfl hp⟩
  | primed mark more =>
    obtain ⟨hx, hp⟩ := hg.factorTail more (.primed hb)
    exact ⟨hx, .step mark rfl hp⟩
  | done _ _ _ => exact ⟨hb, .refl _⟩

theorem passes_of_marker {e : Exponent} (opened : c.kind = some (.opening .curly))
    (h : bracedMarker? c = some e) : Passes c (c.skip 3) := by
  obtain ⟨hc, hk⟩ := bracedMarker_eq_some.1 h
  have closed : c.next.next.kind = some (.closing .curly) := by simpa [Cursor.kind] using hc
  have inside : Passes c.next c.next.next := by
    simp only [← Cursor.kind_next] at hk
    rcases hk with ⟨hk | hk, -⟩ | ⟨hk, -⟩
    · exact .next hk rfl
    · exact .next hk rfl
    · exact .next hk rfl
  exact .enclosed opened inside closed

theorem ofExponent (hg : g.Sound) {e : Exponent} (h : Grammar.exponent g c = .ok (e, c')) :
    e.Built g.declared ∧ Passes c c' := by
  cases exponent_eq_ok.1 h with
  | marker opened all =>
    refine ⟨?_, passes_of_marker opened all⟩
    rcases (bracedMarker_eq_some.1 all).2 with ⟨-, rfl⟩ | ⟨-, rfl⟩ <;> trivial
  | braced opened _ inside => exact hg.ofEnclosed opened inside
  | dagger mark =>
    rcases mark with hk | hk
    · exact ⟨trivial, .next hk rfl⟩
    · exact ⟨trivial, .next hk rfl⟩
  | prime mark => exact ⟨trivial, .next mark rfl⟩
  | negated sign follows =>
    obtain ⟨hx, hp⟩ := hg.exponent follows
    exact ⟨.negated hx, .step sign rfl hp⟩
  | digit taken => exact ⟨.number _, .taking taken⟩
  | symbol here => exact ⟨.symbol _, .next here rfl⟩
  | infinity here => exact ⟨.infinity, .next here rfl⟩
  | group opened inside => exact hg.ofGroup opened inside
  | fraction here read =>
    obtain ⟨hx, hp⟩ := hg.ofFraction read
    exact ⟨hx, .step here rfl hp⟩
  | binomial here read =>
    obtain ⟨hx, hp⟩ := hg.ofBinomial read
    exact ⟨hx, .step here rfl hp⟩
  | root here read =>
    obtain ⟨hx, hp⟩ := hg.ofRoot read
    exact ⟨hx, .step here rfl hp⟩

theorem ofSigned {declared : List String} {signed bare : Cursor → Attempt (Formula × Cursor)}
    (hs : ∀ {c c' : Cursor} {x : Formula}, signed c = .ok (x, c') → Built declared x ∧ Passes c c')
    (hb : ∀ {c c' : Cursor} {x : Formula}, bare c = .ok (x, c') → Built declared x ∧ Passes c c')
    (h : SignedStep signed bare c x c') : Built declared x ∧ Passes c c' := by
  cases h with
  | minus sign follows =>
    obtain ⟨hx, hp⟩ := hs follows
    exact ⟨.negated hx, .step sign rfl hp⟩
  | plus sign follows =>
    obtain ⟨hx, hp⟩ := hs follows
    exact ⟨hx, .step sign rfl hp⟩
  | bare _ _ here => exact hb here

theorem ofTerm (hg : g.Sound) (h : term g mode c = .ok (x, c')) :
    Built g.declared x ∧ Passes c c' := by
  obtain ⟨left, after, hf, ht⟩ := term_eq_ok.1 h
  obtain ⟨hl, hp⟩ := hg.ofFactor hf
  obtain ⟨hx, hq⟩ := hg.termTail ht hl
  exact ⟨hx, hp.trans hq⟩

theorem passes_of_factorSign {op : Operation} (h : factorSign? c.kind = some op) :
    Passes c c.next := by
  obtain ⟨hk, -⟩ | ⟨hk, -⟩ := factorSign_eq_some.1 h
  · exact .next hk rfl
  · exact .next hk rfl

theorem passes_of_termSign {op : Operation} (h : termSign? c.kind = some op) :
    Passes c c.next := by
  obtain ⟨hk, -⟩ | ⟨hk, -⟩ := termSign_eq_some.1 h
  · exact .next hk rfl
  · exact .next hk rfl

theorem ofTermTail (hg : g.Sound) {left : Formula} (h : Grammar.termTail g mode left c = .ok (x, c'))
    (hl : Built g.declared left) : Built g.declared x ∧ Passes c c' := by
  cases termTail_eq_ok.1 h with
  | differential _ => exact ⟨hl, .refl _⟩
  | bareArgument _ _ _ => exact ⟨hl, .refl _⟩
  | explicit _ sign _ follows more =>
    obtain ⟨hr, hp⟩ := hg.signedFactor follows
    obtain ⟨hx, hq⟩ := hg.termTail more (.binary hl hr)
    exact ⟨hx, (passes_of_factorSign sign).trans (hp.trans hq)⟩
  | juxtaposed _ _ _ follows more =>
    obtain ⟨hr, hp⟩ := hg.ofFactor follows
    obtain ⟨hx, hq⟩ := hg.termTail more (.juxtaposed hl hr)
    exact ⟨hx, hp.trans hq⟩
  | done _ _ _ => exact ⟨hl, .refl _⟩

theorem ofSum (hg : g.Sound) (h : Grammar.sum g mode c = .ok (x, c')) :
    Built g.declared x ∧ Passes c c' := by
  obtain ⟨left, after, hs, ht⟩ := sum_eq_ok.1 h
  obtain ⟨hl, hp⟩ := hg.signedTerm hs
  obtain ⟨hx, hq⟩ := hg.sumTail ht hl
  exact ⟨hx, hp.trans hq⟩

theorem ofSumTail (hg : g.Sound) {left : Formula} (h : Grammar.sumTail g mode left c = .ok (x, c'))
    (hl : Built g.declared left) : Built g.declared x ∧ Passes c c' := by
  cases sumTail_eq_ok.1 h with
  | side _ _ _ => exact ⟨hl, .refl _⟩
  | more sign _ follows more =>
    obtain ⟨hr, hp⟩ := hg.signedTerm follows
    obtain ⟨hx, hq⟩ := hg.sumTail more (.binary hl hr)
    exact ⟨hx, (passes_of_termSign sign).trans (hp.trans hq)⟩
  | done _ => exact ⟨hl, .refl _⟩

theorem ofArgumentsRule (hg : g.Sound) {xs : List Formula}
    (h : Grammar.arguments g d c = .ok (xs, c')) : (∀ x ∈ xs, Built g.declared x) ∧
      ∃ last, Passes c last ∧ last.kind = some (.closing d) ∧ last.next = c' := by
  cases arguments_eq_ok.1 h with
  | more first comma follows =>
    obtain ⟨hx, hp⟩ := hg.sum first
    obtain ⟨hr, last, hq, hk, hn⟩ := hg.arguments follows
    exact ⟨by simpa [hx] using hr, last, hp.trans (.step comma rfl hq), hk, hn⟩
  | last first closed =>
    obtain ⟨hx, hp⟩ := hg.sum first
    exact ⟨by simpa using hx, _, hp, closed, rfl⟩

theorem deeper (hg : g.Sound) : g.deeper.Sound where
  sum := hg.ofSum
  sumTail := hg.ofSumTail
  signedTerm h := ofSigned hg.signedTerm hg.ofTerm (signedTerm_eq_ok.1 h)
  termTail := hg.ofTermTail
  signedFactor h := ofSigned hg.signedFactor hg.ofFactor (signedFactor_eq_ok.1 h)
  factorTail := hg.ofFactorTail
  exponent := hg.ofExponent
  arguments := hg.ofArgumentsRule

end Rules.Sound

theorem sound_rules (declared : List String) (depth : Nat) : (rules declared depth).Sound := by
  induction depth with
  | zero => exact sound_exhausted declared
  | succ depth ih => exact ih.deeper

@[simp] theorem declared_rules (declared : List String) (depth : Nat) :
    (rules declared depth).declared = declared := by
  induction depth with
  | zero => rfl
  | succ depth ih => exact ih

theorem member_sound {g : Rules} (hg : g.Sound) {c c' : Cursor} {x : Formula}
    (h : member g c = .ok (x, c')) : x.BuiltMember g.declared ∧ Passes c c' := by
  cases member_eq_ok.1 h with
  | relation first sign second _ =>
    obtain ⟨hl, hp⟩ := hg.sum first
    obtain ⟨hr, hq⟩ := hg.sum second
    exact ⟨.relation hl hr, hp.trans (.step sign rfl hq)⟩
  | expression only _ =>
    obtain ⟨hx, hp⟩ := hg.sum only
    exact ⟨.expression hx, hp⟩

end Grammar

/-- A formula that takes all tokens is that of a member, and the tokens are
passed over to their end. -/
theorem Formula.ofTokens_sound {declared : List String} {tokens : List Token} {limit : Nat}
    {x : Formula} (h : Formula.ofTokens declared tokens limit = .ok x) :
    x.BuiltMember declared ∧
      ∃ last, (Cursor.start tokens limit).Passes last ∧ last.tokens = [] := by
  obtain ⟨last, hm, ht⟩ := Formula.ofTokens_eq_ok.1 h
  obtain ⟨hb, hp⟩ := Grammar.member_sound (Grammar.sound_rules declared _) hm
  exact ⟨by simpa using hb, last, hp, ht⟩

end AnswerKey

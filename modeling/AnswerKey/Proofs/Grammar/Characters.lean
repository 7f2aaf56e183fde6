import AnswerKey.Proofs.Grammar.Content
import AnswerKey.Proofs.Grammar.Steps.Term
import AnswerKey.Token.Lexer

/-! Nothing that is written is dropped or read twice: the formula of a reading
has the characters of the tokens that the reading takes. -/
namespace AnswerKey

open Content (ofText ofFunction)
open Formula (contentAll contentOption)

namespace Grammar

open Cursor (Takes)

@[simp] def Exponent.content : Exponent → Content
  | .value x => x.content
  | .dagger | .prime => ∅

/-- The readings of all rules take just what they write. What was read before a
tail begins counts with the tail. -/
structure Rules.Lossless (g : Rules) : Prop where
  sum {mode : Mode} {c c' : Cursor} {x : Formula} (h : g.sum mode c = .ok (x, c')) :
    Takes c c' x.content
  sumTail {mode : Mode} {left x : Formula} {first c c' : Cursor}
    (h : g.sumTail mode left c = .ok (x, c')) (hl : Takes first c left.content) :
    Takes first c' x.content
  signedTerm {mode : Mode} {c c' : Cursor} {x : Formula}
    (h : g.signedTerm mode c = .ok (x, c')) : Takes c c' x.content
  termTail {mode : Mode} {left x : Formula} {first c c' : Cursor}
    (h : g.termTail mode left c = .ok (x, c')) (hl : Takes first c left.content) :
    Takes first c' x.content
  signedFactor {mode : Mode} {c c' : Cursor} {x : Formula}
    (h : g.signedFactor mode c = .ok (x, c')) : Takes c c' x.content
  factorTail {mode : Mode} {base x : Formula} {first c c' : Cursor}
    (h : g.factorTail mode base c = .ok (x, c')) (hb : Takes first c base.content) :
    Takes first c' x.content
  exponent {c c' : Cursor} {e : Exponent} (h : g.exponent c = .ok (e, c')) :
    Takes c c' e.content
  arguments {d : Delimiter} {c c' : Cursor} {xs : List Formula}
    (h : g.arguments d c = .ok (xs, c')) : Takes c c' (contentAll xs)

theorem lossless_exhausted (declared : List String) : (Rules.exhausted declared).Lossless where
  sum h := nomatch h
  sumTail h := nomatch h
  signedTerm h := nomatch h
  termTail h := nomatch h
  signedFactor h := nomatch h
  factorTail h := nomatch h
  exponent h := nomatch h
  arguments h := nomatch h

@[simp] def headContent (f : Builtin) : Option Formula → Content
  | some x => x.content
  | none => ofFunction f

theorem contentAll_append (xs ys : List Formula) :
    contentAll (xs ++ ys) = contentAll xs ++ contentAll ys := by
  induction xs with
  | nil => simp
  | cons x xs ih => simp [ih, Content.append_assoc]

theorem contentAll_toList (x : Option Formula) : contentAll x.toList = contentOption x := by
  cases x <;> simp

theorem content_applied (f : Builtin) (power base : Option Formula) (args : List Formula)
    (delimited : Bool) : (applied f power base args delimited).content =
      headContent f power ++ contentAll args ++ contentOption base := by
  cases power <;> simp [applied, contentAll_append, contentAll_toList, Content.append_assoc]

theorem content_apply {f : Builtin} (h : f.isInverse = false) (args : List Formula)
    (delimited : Bool) : (Formula.apply f args delimited).content = contentAll args := by
  simp [Content.ofFunction_of_not_inverse h]

theorem content_minusOne {x : Formula} (h : isMinusOne x = true) : x.content = ofText "1" := by
  unfold isMinusOne at h
  split at h
  · simp_all
  · cases h

namespace Rules.Lossless

variable {g : Rules} {mode : Mode} {c c' : Cursor} {x : Formula} {d : Delimiter} {f : Builtin}

theorem ofEnclosed (hg : g.Lossless) (opened : c.kind = some (.opening d))
    (h : bracketed g d c.next = .ok (x, c')) : Takes c c' x.content := by
  obtain ⟨last, hs, hk, rfl⟩ := bracketed_eq_ok.1 h
  exact .step opened rfl ((hg.sum hs).closed hk rfl)

theorem ofGroup (hg : g.Lossless) (opened : c.kind = some (.opening d))
    (h : group g d c = .ok (x, c')) : Takes c c' x.content := by
  obtain ⟨inner, hi, rfl⟩ := group_eq_ok.1 h
  simpa using hg.ofEnclosed opened hi

theorem ofSymbolOrCall (hg : g.Lossless) (h : symbolOrCall g c = .ok (x, c')) :
    Takes c c' x.content := by
  cases symbolOrCall_eq_ok.1 h with
  | call named opened _ inside =>
    simpa using (takes_symbolName named).trans (.step opened rfl (hg.arguments inside))
  | symbol named _ => simpa using takes_symbolName named

theorem ofOperand (hg : g.Lossless) {allowSymbol : Bool}
    (h : operand g allowSymbol c = .ok (x, c')) : Takes c c' x.content := by
  cases operand_eq_ok.1 h with
  | braced opened inside => exact hg.ofEnclosed opened inside
  | digit taken => simpa using Takes.digit taken
  | symbol _ here => simpa using Takes.word here rfl
  | infinity _ here => simpa using Takes.mark here rfl

theorem ofLogBase (hg : g.Lossless) {base : Option Formula} (h : logBase g f c = .ok (base, c')) :
    Takes c c' (contentOption base) := by
  cases logBase_eq_ok.1 h with
  | written _ mark below =>
    simpa using Takes.step mark rfl (hg.ofOperand below)
  | absent _ => simpa using Takes.refl c

theorem takes_raise (h : Takes c c' x.content) :
    Takes c c' (headContent (raise f x).1 (raise f x).2) := by
  unfold raise
  split
  · next inverse hinverse =>
    split
    · next hminus =>
      rw [content_minusOne hminus] at h
      exact h.leave_one (Builtin.isInverse_of_inverse? hinverse)
    · exact h
  · exact h

theorem ofFunctionExponent (hg : g.Lossless) {r : Builtin × Option Formula}
    (h : functionExponent g f c = .ok (r, c')) : Takes c c' (headContent r.1 r.2) := by
  cases functionExponent_eq_ok.1 h with
  | written mark above => exact .step mark rfl (takes_raise (hg.exponent above))
  | absent _ => exact .spare c f

theorem ofFunctionArguments (hg : g.Lossless) {r : List Formula × Bool}
    (h : functionArguments g f mode c = .ok (r, c')) : Takes c c' (contentAll r.1) := by
  cases functionArguments_eq_ok.1 h with
  | pair _ left right =>
    simpa using (hg.ofOperand left).trans (hg.ofOperand right)
  | delimited _ _ opened inside => exact .step opened rfl (hg.arguments inside)
  | bare _ _ _ follows => simpa using hg.signedTerm follows

theorem ofApplication (hg : g.Lossless) (h : application g f mode c = .ok (x, c')) :
    Takes c c' x.content := by
  obtain ⟨base, c₁, f', power, c₂, args, delimited, hb, hp, ha, rfl⟩ := application_eq_ok.1 h
  have hhead := (hg.ofFunctionExponent hp).trans (hg.ofFunctionArguments ha)
  -- the base of a logarithm is written first and is its last argument
  rw [content_applied]
  exact ((hg.ofLogBase hb).trans hhead).swap

theorem ofRoot (hg : g.Lossless) (h : root g c = .ok (x, c')) : Takes c c' x.content := by
  cases root_eq_ok.1 h with
  | indexed opened inside under =>
    simpa using (hg.ofEnclosed opened inside).trans (hg.ofOperand under)
  | plain _ under => simpa using hg.ofOperand under

theorem ofFraction (hg : g.Lossless) (h : fraction g c = .ok (x, c')) : Takes c c' x.content := by
  obtain ⟨top, middle, bottom, ht, hb, rfl⟩ := fraction_eq_ok.1 h
  simpa using (hg.ofOperand ht).trans (hg.ofOperand hb)

theorem ofBinomial (hg : g.Lossless) (h : binomial g c = .ok (x, c')) : Takes c c' x.content := by
  obtain ⟨top, middle, bottom, ht, hb, rfl⟩ := binomial_eq_ok.1 h
  simpa using (hg.ofOperand ht).trans (hg.ofOperand hb)

theorem ofBars (hg : g.Lossless) (h : bars g c = .ok (x, c')) : Takes c c' x.content := by
  cases bars_eq_ok.1 h with
  | absolute inside closed | ket inside closed =>
    rw [content_apply]
    · simpa using (hg.sum inside).closed closed rfl
    · rfl

theorem ofAngle (hg : g.Lossless) (h : angle g c = .ok (x, c')) : Takes c c' x.content := by
  cases angle_eq_ok.1 h with
  | innerProduct left bar _ right closed =>
    have htaken := (hg.sum left).trans (.step bar rfl ((hg.sum right).closed closed rfl))
    rw [content_apply]
    · simpa using htaken
    · rfl
  | bra left bar _ =>
    rw [content_apply]
    · simpa using (hg.sum left).closed bar rfl
    · rfl

theorem ofDifferential {isPartial : Bool} (h : differential isPartial c = .ok (x, c')) :
    Takes c c' x.content := by
  cases differential_eq_ok.1 h with
  | named written => simpa using takes_symbolName written
  | bare _ => simpa using Takes.refl c

theorem ofIndexBinding (hg : g.Lossless) {r : String × Formula}
    (h : indexBinding g c = .ok (r, c')) : Takes c c' (ofText r.1 ++ r.2.content) := by
  obtain ⟨opened, name, after, lower, named, equal, inside, rfl⟩ := indexBinding_eq_ok.1 h
  obtain ⟨last, hs, hk, rfl⟩ := bracketed_eq_ok.1 inside
  have hlower := (Takes.step equal rfl (hg.sum hs)).closed hk rfl
  exact .step opened rfl ((takes_symbolName named).trans hlower)

def boundsContent {α β : Type} (ofLower : α → Content)
    (ofUpper : β → Content) (bounds : Option α × Option β) : Content :=
  (bounds.1.map ofLower).getD ∅ ++ (bounds.2.map ofUpper).getD ∅

theorem takes_bound {α β : Type} {ofLower : α → Content}
    {ofUpper : β → Content} {lower : Cursor → α → Cursor → Prop}
    {upper : Cursor → β → Cursor → Prop} {bounds r : Option α × Option β} {first : Cursor}
    (h : BoundStep lower upper c bounds r c')
    (hl : ∀ {c c' a}, lower c a c' → Takes c c' (ofLower a))
    (hu : ∀ {c c' b}, upper c b c' → Takes c c' (ofUpper b))
    (hbounds : Takes first c (boundsContent ofLower ofUpper bounds)) :
    Takes first c' (boundsContent ofLower ofUpper r) := by
  cases h with
  | lower mark below =>
    have htaken := (hbounds.trans (.step mark rfl (hl below))).swap
    simpa [boundsContent] using htaken
  | upper mark above =>
    have htaken := hbounds.trans (.step mark rfl (hu above))
    simpa [boundsContent] using htaken
  | absent _ _ => exact hbounds

theorem takes_bounds {α β : Type} {ofLower : α → Content}
    {ofUpper : β → Content} {lower : Cursor → α → Cursor → Prop}
    {upper : Cursor → β → Cursor → Prop} {bounds r : Option α × Option β} {middle : Cursor}
    (h : BoundStep lower upper c (none, none) bounds middle)
    (h' : BoundStep lower upper middle bounds r c')
    (hl : ∀ {c c' a}, lower c a c' → Takes c c' (ofLower a))
    (hu : ∀ {c c' b}, upper c b c' → Takes c c' (ofUpper b)) :
    Takes c c' (boundsContent ofLower ofUpper r) := by
  refine takes_bound h' hl hu (takes_bound h hl hu ?_)
  simpa [boundsContent] using Takes.refl c

theorem ofAggregate (hg : g.Lossless) {kind : Aggregate}
    (h : aggregate g kind mode c = .ok (x, c')) : Takes c c' x.content := by
  obtain ⟨bounds, c₁, name, lower, upper, c₂, body, h₁, h₂, hb, rfl⟩ := aggregate_eq_ok.1 h
  have hbounds := takes_bounds (aggregateBound_eq_ok.1 h₁) (aggregateBound_eq_ok.1 h₂)
    hg.ofIndexBinding hg.ofOperand
  simpa [boundsContent] using hbounds.trans (hg.signedTerm hb)

theorem ofIntegralLimit (hg : g.Lossless) (h : integralLimit g c = .ok (x, c')) :
    Takes c c' x.content := by
  cases integralLimit_eq_ok.1 h with
  | negated sign follows => simpa using Takes.step sign rfl (hg.ofOperand follows)
  | plain _ here => exact hg.ofOperand here

theorem ofIntegralBody (hg : g.Lossless) (h : integralBody g mode c = .ok (x, c')) :
    Takes c c' x.content := by
  have mark {isPartial : Bool} : (differentialMark isPartial).isWord = false := by
    cases isPartial <;> rfl
  cases integralBody_eq_ok.1 h with
  | differentialFirst here first _ follows =>
    simpa using (Takes.step here mark (ofDifferential first)).trans (hg.signedTerm follows)
  | differentialOnly here first _ => exact .step here mark (ofDifferential first)
  | term _ here => exact hg.signedTerm here

theorem ofIntegral (hg : g.Lossless) (h : integral g mode c = .ok (x, c')) :
    Takes c c' x.content := by
  obtain ⟨bounds, c₁, lower, upper, c₂, body, h₁, h₂, hb, rfl⟩ := integral_eq_ok.1 h
  have hbounds := takes_bounds (integralBound_eq_ok.1 h₁) (integralBound_eq_ok.1 h₂)
    hg.ofIntegralLimit hg.ofIntegralLimit
  have htaken := hbounds.trans (hg.ofIntegralBody hb)
  cases lower <;> cases upper <;> simpa [boundsContent] using htaken

theorem takes_side {s : Option Side} (h : side c = .ok (s, c')) : Takes c c' ∅ := by
  have sign (s : Side) : (sideMark s).isWord = false := by cases s <;> rfl
  cases side_eq_ok.1 h with
  | @braced s mark opened signed closed =>
    exact .step mark rfl (.step opened rfl ((Takes.mark signed (sign s)).closed closed rfl))
  | @raised s mark signed => exact .step mark rfl (.mark signed (sign s))
  | emptyCaret mark _ _ => exact .mark mark rfl
  | @bare s signed _ => exact .mark signed (sign s)
  | absent _ _ => exact .refl c

theorem ofLimit (hg : g.Lossless) (h : limit g mode c = .ok (x, c')) : Takes c c' x.content := by
  obtain ⟨name, c₁, approach, c₂, s, c₃, body, mark, opened, named, arrow, target, hs, closed,
    hb, rfl⟩ := limit_eq_ok.1 h
  have hside : Takes c₁ c₃.next (approach.content ++ ∅) :=
    .step arrow rfl (((hg.sum target).trans (takes_side hs)).closed closed rfl)
  have htaken := (takes_symbolName named).trans (hside.trans (hg.signedTerm hb))
  refine .step mark rfl (.step opened rfl ?_)
  simpa [Content.append_assoc] using htaken

theorem ofAtom (hg : g.Lossless) (h : atom g mode c = .ok (x, c')) : Takes c c' x.content := by
  cases atom_eq_ok.1 h with
  | number here => simpa using Takes.word here rfl
  | symbolOrCall _ read => exact hg.ofSymbolOrCall read
  | infinity here => simpa using Takes.mark here rfl
  | floor here inside | ceil here inside =>
    rw [content_apply]
    · simpa using hg.ofEnclosed here inside
    · rfl
  | angle here inside => exact .step here rfl (hg.ofAngle inside)
  | group here _ inside => exact hg.ofGroup here inside
  | bars here _ inside => exact .step here rfl (hg.ofBars inside)
  | application here read => exact .step here rfl (hg.ofApplication read)
  | root here read => exact .step here rfl (hg.ofRoot read)
  | fraction here read => exact .step here rfl (hg.ofFraction read)
  | binomial here read => exact .step here rfl (hg.ofBinomial read)
  | sum here read | product here read => exact .step here rfl (hg.ofAggregate read)
  | integral here read => exact .step here rfl (hg.ofIntegral read)
  | limit here read => exact .step here rfl (hg.ofLimit read)
  | @differential isPartial _ _ here read =>
    exact .step here (by cases isPartial <;> rfl) (ofDifferential read)

theorem ofFactor (hg : g.Lossless) (h : factor g mode c = .ok (x, c')) :
    Takes c c' x.content := by
  obtain ⟨base, after, ha, ht⟩ := factor_eq_ok.1 h
  exact hg.factorTail ht (hg.ofAtom ha)

theorem content_over (base : Formula) (e : Exponent) :
    (e.over base).content = base.content ++ e.content := by
  cases e <;> simp [Exponent.over]

theorem ofFactorTail (hg : g.Lossless) {base : Formula} {first : Cursor}
    (h : Grammar.factorTail g mode base c = .ok (x, c')) (hb : Takes first c base.content) :
    Takes first c' x.content := by
  cases factorTail_eq_ok.1 h with
  | side _ _ _ => exact hb
  | exponent mark _ above more =>
    refine hg.factorTail more ?_
    rw [content_over]
    exact hb.trans (.step mark rfl (hg.exponent above))
  | factorial mark more | primed mark more =>
    exact hg.factorTail more (by simpa using hb.closed mark rfl)
  | done _ _ _ => exact hb

theorem takes_marker {e : Exponent} (opened : c.kind = some (.opening .curly))
    (h : bracedMarker? c = some e) : Takes c (c.skip 3) e.content := by
  obtain ⟨hc, hk⟩ := bracedMarker_eq_some.1 h
  have closed : c.next.next.kind = some (.closing .curly) := by simpa [Cursor.kind] using hc
  simp only [← Cursor.kind_next] at hk
  rcases hk with ⟨hk | hk, rfl⟩ | ⟨hk, rfl⟩
  all_goals exact .step opened rfl ((Takes.mark hk rfl).closed closed rfl)

theorem ofExponent (hg : g.Lossless) {e : Exponent} (h : Grammar.exponent g c = .ok (e, c')) :
    Takes c c' e.content := by
  cases exponent_eq_ok.1 h with
  | marker opened all => exact takes_marker opened all
  | braced opened _ inside => exact hg.ofEnclosed opened inside
  | dagger mark =>
    rcases mark with hk | hk
    · exact .mark hk rfl
    · exact .mark hk rfl
  | prime mark => exact .mark mark rfl
  | negated sign follows =>
    simpa using Takes.step sign rfl (hg.exponent follows)
  | digit taken => simpa using Takes.digit taken
  | symbol here => simpa using Takes.word here rfl
  | infinity here => simpa using Takes.mark here rfl
  | group opened inside => exact hg.ofGroup opened inside
  | fraction here read => exact .step here rfl (hg.ofFraction read)
  | binomial here read => exact .step here rfl (hg.ofBinomial read)
  | root here read => exact .step here rfl (hg.ofRoot read)

theorem ofSigned {signed bare : Cursor → Attempt (Formula × Cursor)}
    (hs : ∀ {c c' : Cursor} {x : Formula}, signed c = .ok (x, c') → Takes c c' x.content)
    (hb : ∀ {c c' : Cursor} {x : Formula}, bare c = .ok (x, c') → Takes c c' x.content)
    (h : SignedStep signed bare c x c') : Takes c c' x.content := by
  cases h with
  | minus sign follows => simpa using Takes.step sign rfl (hs follows)
  | plus sign follows => exact .step sign rfl (hs follows)
  | bare _ _ here => exact hb here

theorem ofTerm (hg : g.Lossless) (h : term g mode c = .ok (x, c')) : Takes c c' x.content := by
  obtain ⟨left, after, hf, ht⟩ := term_eq_ok.1 h
  exact hg.termTail ht (hg.ofFactor hf)

theorem takes_factorSign {op : Operation} (h : factorSign? c.kind = some op) :
    Takes c c.next ∅ := by
  obtain ⟨hk, -⟩ | ⟨hk, -⟩ := factorSign_eq_some.1 h
  · exact .mark hk rfl
  · exact .mark hk rfl

theorem takes_termSign {op : Operation} (h : termSign? c.kind = some op) :
    Takes c c.next ∅ := by
  obtain ⟨hk, -⟩ | ⟨hk, -⟩ := termSign_eq_some.1 h
  · exact .mark hk rfl
  · exact .mark hk rfl

theorem ofTermTail (hg : g.Lossless) {left : Formula} {first : Cursor}
    (h : Grammar.termTail g mode left c = .ok (x, c')) (hl : Takes first c left.content) :
    Takes first c' x.content := by
  cases termTail_eq_ok.1 h with
  | differential _ => exact hl
  | bareArgument _ _ _ => exact hl
  | explicit _ sign _ follows more =>
    refine hg.termTail more ?_
    simpa using (hl.trans (takes_factorSign sign)).trans (hg.signedFactor follows)
  | juxtaposed _ _ _ follows more =>
    refine hg.termTail more ?_
    simpa using hl.trans (hg.ofFactor follows)
  | done _ _ _ => exact hl

theorem ofSum (hg : g.Lossless) (h : Grammar.sum g mode c = .ok (x, c')) :
    Takes c c' x.content := by
  obtain ⟨left, after, hs, ht⟩ := sum_eq_ok.1 h
  exact hg.sumTail ht (hg.signedTerm hs)

theorem ofSumTail (hg : g.Lossless) {left : Formula} {first : Cursor}
    (h : Grammar.sumTail g mode left c = .ok (x, c')) (hl : Takes first c left.content) :
    Takes first c' x.content := by
  cases sumTail_eq_ok.1 h with
  | side _ _ _ => exact hl
  | more sign _ follows more =>
    refine hg.sumTail more ?_
    simpa using (hl.trans (takes_termSign sign)).trans (hg.signedTerm follows)
  | done _ => exact hl

theorem ofArguments (hg : g.Lossless) {xs : List Formula}
    (h : Grammar.arguments g d c = .ok (xs, c')) : Takes c c' (contentAll xs) := by
  cases arguments_eq_ok.1 h with
  | more first comma follows =>
    simpa using (hg.sum first).trans (.step comma rfl (hg.arguments follows))
  | last first closed => simpa using (hg.sum first).closed closed rfl

theorem deeper (hg : g.Lossless) : g.deeper.Lossless where
  sum := hg.ofSum
  sumTail := hg.ofSumTail
  signedTerm h := ofSigned hg.signedTerm hg.ofTerm (signedTerm_eq_ok.1 h)
  termTail := hg.ofTermTail
  signedFactor h := ofSigned hg.signedFactor hg.ofFactor (signedFactor_eq_ok.1 h)
  factorTail := hg.ofFactorTail
  exponent := hg.ofExponent
  arguments := hg.ofArguments

end Rules.Lossless

theorem lossless_rules (declared : List String) (depth : Nat) :
    (rules declared depth).Lossless := by
  induction depth with
  | zero => exact lossless_exhausted declared
  | succ depth ih => exact ih.deeper

theorem takes_member {g : Rules} (hg : g.Lossless) {c c' : Cursor} {x : Formula}
    (h : member g c = .ok (x, c')) : Takes c c' x.content := by
  cases member_eq_ok.1 h with
  | relation first sign second _ =>
    simpa using (hg.sum first).trans (.step sign rfl (hg.sum second))
  | expression only _ => exact hg.sum only

end Grammar

/-- The numbers and symbols among the tokens of a formula have the characters of
its numbers and names, but for the underscores that are put into names and one
character `1` for each inverse function that is applied. -/
theorem Formula.content_of_ofTokens {declared : List String} {tokens : List Token} {limit : Nat}
    {x : Formula} (h : Formula.ofTokens declared tokens limit = .ok x) :
    ∃ inserted missing, inserted ≤ Token.underscores tokens ∧ missing ≤ x.content.inverses ∧
      (Token.charactersAll tokens ++ .replicate inserted '_').Perm
        (x.content.characters ++ .replicate missing '1') := by
  obtain ⟨last, hm, ht⟩ := Formula.ofTokens_eq_ok.1 h
  obtain ⟨inserted, missing, hmissing, hinserted, hcharacters⟩ :=
    Grammar.takes_member (Grammar.lossless_rules declared _) hm
  refine ⟨inserted, missing, ?_, hmissing, ?_⟩
  · exact Nat.le_trans (Nat.le_add_right _ _) hinserted
  · simpa [ht, Token.charactersAll, Cursor.start] using hcharacters

theorem Formula.content_of_inverse_sine : ∃ tokens x,
    Token.lex "\\sin^\x7b-1\x7d x_\x7b12\x7d" = .ok tokens ∧
      Formula.ofTokens [] tokens 16 = .ok x ∧ x.content.characters = ['x', '_', '1', '2'] ∧
      x.content.inverses = 1 ∧
      ∃ inserted missing, inserted ≤ Token.underscores tokens ∧ missing ≤ x.content.inverses ∧
        (Token.charactersAll tokens ++ .replicate inserted '_').Perm
          (x.content.characters ++ .replicate missing '1') := by
  have hread : (Token.lex "\\sin^\x7b-1\x7d x_\x7b12\x7d").toOption.bind (fun tokens =>
      (Formula.ofTokens [] tokens 16).toOption.map fun x =>
        (x.content.characters, x.content.inverses)) = some (['x', '_', '1', '2'], 1) := by
    decide +kernel
  obtain ⟨tokens, htokens, hformula⟩ := Option.bind_eq_some_iff.1 hread
  obtain ⟨x, hx, hcontent⟩ := Option.map_eq_some_iff.1 hformula
  obtain ⟨hcharacters, hinverses⟩ := Prod.mk.inj hcontent
  have hx := toOption_eq_some.1 hx
  exact ⟨tokens, x, toOption_eq_some.1 htokens, hx, hcharacters, hinverses,
    Formula.content_of_ofTokens hx⟩

end AnswerKey

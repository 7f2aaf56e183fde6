import AnswerKey.Proofs.Grammar.Limits

/-! Integrals, their bounds, and the differential that ends their body. -/
namespace AnswerKey

namespace Formula

theorem lastFactor_ne_differential {f : Formula} {x : Expr} (h : f.toExpr = .ok x) :
    f.lastFactor.isDifferential = false := by
  fun_induction lastFactor f generalizing x with
  | case1 l r ih | case2 l r ih =>
    cases exprStep_of_toExpr h with
    | binary _ _ right => exact ih right
  | case3 a l r ih =>
    cases exprStep_of_toExpr h with
    | juxtaposed _ _ right => exact ih right
  | case4 => cases exprStep_of_toExpr h <;> rfl

theorem toExpr_integral {lower upper : Option Formula} {f : Formula} {x : Expr}
    {lower' upper' : Option Expr} (name : String) (hl : optionToExpr lower = .ok lower')
    (hu : optionToExpr upper = .ok upper') (hx : f.toExpr = .ok x) :
    (integral lower upper (juxtaposed .differential f (differential (some name) false))).toExpr =
      .ok (.integral lower' upper' x name) := by
  have unbraced : f.isBracedDifferential = false := by
    cases exprStep_of_toExpr hx with
    | group part => cases exprStep_of_toExpr part <;> rfl
    | _ => rfl
  have pair : ungroupedPair f (differential (some name) false) =
      (f, differential (some name) false) := by
    rw [ungroupedPair, unbraced]
    rfl
  have body : (juxtaposed .differential f (differential (some name) false)).splitDifferential =
      .ok (f, name) := by
    rw [splitDifferential, pair]
    rfl
  rw [toExpr]
  split
  · next herror => cases body.symm.trans herror
  · next hsplit =>
    obtain ⟨rfl, rfl⟩ := Prod.mk.inj (Except.ok.inj (body.symm.trans hsplit))
    simp [hl, hu, hx]

end Formula

namespace Grammar

open Formula (ofTokens)
open Rules (full)

variable {declared : List String} {ts rest : List Token} {x : Formula} {c : Cursor}

inductive BoundTokens (declared : List String) : List Token → Formula → Prop
  | braced {opened closed : Token} {inside : List Token} {x : Formula} {limit : Nat}
      (ho : opened.kind = .opening .curly) (hx : ofTokens declared inside limit = .ok x)
      (unrelated : x.isRelation = false) (hc : closed.kind = .closing .curly) :
      BoundTokens declared (opened :: (inside ++ [closed])) x
  | digit {t : Token} {d : Char} (ht : t.kind = .number) (text : t.text.toList = [d])
      (isDigit : d.isDigit = true) : BoundTokens declared [t] (.number d.toString)
  | symbol {t : Token} (ht : t.kind = .symbol) : BoundTokens declared [t] (.symbol t.text)
  | infinity {t : Token} (ht : t.kind = .infinity) : BoundTokens declared [t] .infinity

inductive SignedBoundTokens (declared : List String) : List Token → Formula → Prop
  | plain {ts : List Token} {x : Formula} (h : BoundTokens declared ts x) :
      SignedBoundTokens declared ts x
  | negated {sign : Token} {ts : List Token} {x : Formula} (hs : sign.kind = .minus)
      (h : BoundTokens declared ts x) : SignedBoundTokens declared (sign :: ts) (.negated x)

inductive IntegralBounds (declared : List String) :
    List Token → Option Formula → Option Formula → Prop
  | none : IntegralBounds declared [] none none
  | lower {mark : Token} {ts : List Token} {x : Formula} (hm : mark.kind = .underscore)
      (h : SignedBoundTokens declared ts x) : IntegralBounds declared (mark :: ts) (some x) none
  | upper {mark : Token} {ts : List Token} {x : Formula} (hm : mark.kind = .caret)
      (h : SignedBoundTokens declared ts x) : IntegralBounds declared (mark :: ts) none (some x)
  | lowerUpper {mark mark' : Token} {ts ts' : List Token} {x y : Formula}
      (hm : mark.kind = .underscore) (h : SignedBoundTokens declared ts x)
      (hm' : mark'.kind = .caret) (h' : SignedBoundTokens declared ts' y) :
      IntegralBounds declared (mark :: (ts ++ mark' :: ts')) (some x) (some y)
  | upperLower {mark mark' : Token} {ts ts' : List Token} {x y : Formula}
      (hm : mark.kind = .caret) (h : SignedBoundTokens declared ts y)
      (hm' : mark'.kind = .underscore) (h' : SignedBoundTokens declared ts' x) :
      IntegralBounds declared (mark :: (ts ++ mark' :: ts')) (some x) (some y)

theorem kind_of_tokens {t : Token} {k : Token.Kind} (h : c.tokens = t :: rest) (hk : t.kind = k) :
    c.kind = some k := Cursor.kind_eq_some.2 ⟨t, rest, h, hk⟩

theorem bracketed_of_ofTokens {closed : Token} {limit : Nat}
    (hx : ofTokens declared ts limit = .ok x) (unrelated : x.isRelation = false)
    (hc : closed.kind = .closing .curly) (p : Option Nat) (limit' : Nat) :
    ∃ c', bracketed (full declared) .curly ⟨ts ++ closed :: rest, p, limit'⟩ = .ok (x, c') ∧
      c'.tokens = rest := by
  have trailing : ∀ t ∈ (closed :: rest).head?, t.kind.isTrailing = true := by
    simp [hc, Token.Kind.isTrailing]
  obtain ⟨m, hs, hm⟩ := sum_append trailing hx unrelated (.refl _)
    (by simp [SumEnds, TermEnds, FactorEnds, Cursor.start, Cursor.kind, Cursor.kindAt, hc, isSign])
    (SideTokens.none.closes hc x) (.of_other (by simp [hc])) p limit'
  exact ⟨_, bracketed_eq_ok.2 ⟨m, hs, kind_of_tokens hm hc, rfl⟩, Cursor.tokens_next_of_cons hm⟩

theorem BoundTokens.operand (h : BoundTokens declared ts x) (hc : c.tokens = ts ++ rest) :
    ∃ c', operand (full declared) true c = .ok (x, c') ∧ c'.tokens = rest := by
  cases h with
  | braced ho hx unrelated hclosed =>
    rw [List.cons_append, List.append_assoc, List.singleton_append] at hc
    obtain ⟨c', hi, hr⟩ := bracketed_of_ofTokens hx unrelated hclosed _ c.limit
    refine ⟨c', operand_eq_ok.2 (.braced (kind_of_tokens hc ho) ?_), hr⟩
    rw [Cursor.next_of_cons hc]
    exact hi
  | digit ht text isDigit =>
    exact ⟨_, operand_eq_ok.2 (.digit (Cursor.takeDigit_eq_some.2 (.last hc ht text isDigit))),
      Cursor.tokens_next_of_cons hc⟩
  | @symbol t ht =>
    have step : OperandStep (full declared) true c (.symbol c.text) c.next :=
      .symbol rfl (kind_of_tokens hc ht)
    have text : c.text = t.text := by simp [Cursor.text, hc]
    rw [text] at step
    exact ⟨_, operand_eq_ok.2 step, Cursor.tokens_next_of_cons hc⟩
  | infinity ht =>
    exact ⟨_, operand_eq_ok.2 (.infinity rfl (kind_of_tokens hc ht)), Cursor.tokens_next_of_cons hc⟩

theorem SignedBoundTokens.integralLimit (h : SignedBoundTokens declared ts x)
    (hc : c.tokens = ts ++ rest) :
    ∃ c', integralLimit (full declared) c = .ok (x, c') ∧ c'.tokens = rest := by
  cases h with
  | plain h =>
    obtain ⟨c', ho, hr⟩ := h.operand hc
    refine ⟨c', integralLimit_eq_ok.2 (.plain ?_ ho), hr⟩
    intro hk
    cases operand_eq_ok.1 ho with
    | braced here | symbol _ here | infinity _ here => simp [hk] at here
    | digit taken => simp [Cursor.kind_of_takeDigit taken] at hk
  | negated hs h =>
    obtain ⟨c', ho, hr⟩ := h.operand (c := c.next) (Cursor.tokens_next_of_cons hc)
    exact ⟨c', integralLimit_eq_ok.2 (.negated (kind_of_tokens hc hs) ho), hr⟩

theorem IntegralBounds.read {lower upper : Option Formula}
    (h : IntegralBounds declared ts lower upper)
    (hrest : ∀ t ∈ rest.head?, t.kind ≠ .underscore ∧ t.kind ≠ .caret)
    (hc : c.tokens = ts ++ rest) :
    ∃ bounds c₁ c₂, integralBound (full declared) (Option.none, Option.none) c = .ok (bounds, c₁) ∧
      integralBound (full declared) bounds c₁ = .ok ((lower, upper), c₂) ∧ c₂.tokens = rest := by
  have absent {c : Cursor} (hc : c.tokens = rest) (bounds : Option Formula × Option Formula) :
      integralBound (full declared) bounds c = .ok (bounds, c) := by
    have kind_ne {k : Token.Kind} (hk : ∀ t ∈ rest.head?, t.kind ≠ k) : c.kind ≠ some k := by
      intro here
      obtain ⟨t, us, ht, htk⟩ := Cursor.kind_eq_some.1 here
      exact hk t (by simp [← hc, ht]) htk
    exact integralBound_eq_ok.2 (.absent
      (fun h => absurd h (kind_ne fun t ht => (hrest t ht).1))
      (fun h => absurd h (kind_ne fun t ht => (hrest t ht).2)))
  cases h with
  | none => exact ⟨_, c, c, absent hc _, absent hc _, hc⟩
  | lower hm h =>
    obtain ⟨c', hl, hr⟩ := h.integralLimit (c := c.next) (Cursor.tokens_next_of_cons hc)
    exact ⟨_, c', c', integralBound_eq_ok.2 (.lower (kind_of_tokens hc hm) hl), absent hr _, hr⟩
  | upper hm h =>
    obtain ⟨c', hl, hr⟩ := h.integralLimit (c := c.next) (Cursor.tokens_next_of_cons hc)
    exact ⟨_, c', c', integralBound_eq_ok.2 (.upper (kind_of_tokens hc hm) hl), absent hr _, hr⟩
  | lowerUpper hm h hm' h' =>
    rw [List.cons_append, List.append_assoc, List.cons_append] at hc
    obtain ⟨c₁, hl, hr⟩ := h.integralLimit (c := c.next) (Cursor.tokens_next_of_cons hc)
    obtain ⟨c₂, hl', hr'⟩ := h'.integralLimit (c := c₁.next) (Cursor.tokens_next_of_cons hr)
    exact ⟨_, c₁, c₂, integralBound_eq_ok.2 (.lower (kind_of_tokens hc hm) hl),
      integralBound_eq_ok.2 (.upper (kind_of_tokens hr hm') hl'), hr'⟩
  | upperLower hm h hm' h' =>
    rw [List.cons_append, List.append_assoc, List.cons_append] at hc
    obtain ⟨c₁, hl, hr⟩ := h.integralLimit (c := c.next) (Cursor.tokens_next_of_cons hc)
    obtain ⟨c₂, hl', hr'⟩ := h'.integralLimit (c := c₁.next) (Cursor.tokens_next_of_cons hr)
    exact ⟨_, c₁, c₂, integralBound_eq_ok.2 (.upper (kind_of_tokens hc hm) hl),
      integralBound_eq_ok.2 (.lower (kind_of_tokens hr hm') hl'), hr'⟩

/-! Behind a term that takes all of the first text, the second one goes on with the
tail. -/

section GoesOn

variable {tail : List Token} {trailing : ∀ t ∈ tail.head?, t.kind.isTrailing = true}
  {d c' : Cursor} {left : Formula} {depth : Nat}

theorem factorEnds_of_trailing (uncaret : (Cursor.start tail 0).kind ≠ some .caret)
    (trailing : ∀ t ∈ tail.head?, t.kind.isTrailing = true) : FactorEnds tail .plain := by
  refine ⟨fun h => absurd h uncaret, fun h => ?_⟩
  obtain ⟨t, rest, rfl, hk⟩ := Cursor.kind_eq_some.1 h
  have := trailing t rfl
  simp [hk, Token.Kind.isTrailing] at this

theorem termTail_goes_on (hends : FactorEnds tail .plain) (hc : (likeness declared tail trailing).rel c d)
    (h : (rules declared depth).termTail .plain left c = .ok (x, c')) (hend : c'.kind = none)
    (hx : Closes tail x) :
    ∃ d', (likeness declared tail trailing).rel c' d' ∧
      ∀ r, (full declared).termTail .plain x d' = .ok r →
        (full declared).termTail .plain left d = .ok r := by
  let P := likeness declared tail trailing
  -- What is read behind `x` is a parameter: it is not known until the end is reached.
  induction depth generalizing left c d with
  | zero => cases h
  | succ depth ih =>
    have hf := follow_rules P depth
    have fits : Mode.plain.Fits .plain := .refl _
    have behind {right left' : Formula} {m : Cursor} (last : left'.lastPart? = some right)
        (more : (rules declared depth).termTail .plain left' m = .ok (x, c'))
        (hm : m.kind = none) : FactorEnds tail .plain ∧ Closes tail right := by
      obtain ⟨rfl, rfl⟩ := hf.starts.termTail (.inl hm) more
      exact ⟨hends, hx.last last⟩
    cases termTail_eq_ok.1 h with
    | differential | done => exact ⟨d, hc, fun r hr => hr⟩
    | bareArgument _ _ bare => cases bare
    | explicit other sign free follows more =>
      obtain ⟨k, hk, step⟩ := Rules.Follow.kind_of_factorSign sign
      obtain ⟨m, hm, hr⟩ := (hf.signedFactor fits nofun (P.step hc hk step)).last follows
        (behind rfl more)
      obtain ⟨d', hd, hgo⟩ := ih hr more
      rw [hk, ← P.kind hc hk] at sign
      refine ⟨d', hd, fun r hr => ?_⟩
      rw [Rules.termTail_full]
      exact termTail_eq_ok.2 (.explicit other sign rfl hm (hgo r hr))
    | juxtaposed other unsigned shape follows more =>
      obtain ⟨k, hk⟩ := Option.ne_none_iff_exists'.1
        (Rules.Follow.inner_of_startsFactor (startsFactor_of_factor follows))
      obtain ⟨m, hm, hr⟩ := (hf.ofFactor fits nofun hc).last follows (behind rfl more)
      obtain ⟨d', hd, hgo⟩ := ih hr more
      rw [hk, ← P.kind hc hk] at unsigned
      rw [hf.names, ← P.adjacency fits hc (.loose c d) hk] at shape
      refine ⟨d', hd, fun r hr => ?_⟩
      rw [Rules.termTail_full]
      exact termTail_eq_ok.2 (.juxtaposed other unsigned shape hm (hgo r hr))

/-- A minus sign in front would take the tail with the term. -/
theorem signedTerm_goes_on (uncaret : (Cursor.start tail 0).kind ≠ some .caret)
    (hc : (likeness declared tail trailing).rel c d)
    (h : (rules declared depth).signedTerm .plain c = .ok (x, c')) (hend : c'.kind = none)
    (hx : Closes tail x) (hneg : ∀ y, x ≠ .negated y) :
    ∃ d', (likeness declared tail trailing).rel c' d' ∧
      ∀ r, (full declared).termTail .plain x d' = .ok r →
        (full declared).signedTerm .plain d = .ok r := by
  let P := likeness declared tail trailing
  have hends := factorEnds_of_trailing uncaret trailing
  induction depth generalizing c d with
  | zero => cases h
  | succ depth ih =>
    have hf := follow_rules P depth
    cases signedTerm_eq_ok.1 h with
    | minus => exact absurd rfl (hneg _)
    | plus sign follows =>
      obtain ⟨d', hd, hgo⟩ := ih (P.step hc sign rfl) follows
      refine ⟨d', hd, fun r hr => ?_⟩
      rw [Rules.signedTerm_full]
      exact signedTerm_eq_ok.2 (.plus (P.kind hc sign) (hgo r hr))
    | bare noMinus noPlus term =>
      obtain ⟨left, after, hl, ht⟩ := term_eq_ok.1 term
      have inner := Rules.Follow.inner_of_startsFactor (startsFactor_of_factor hl)
      obtain ⟨m, hm, hr⟩ := (hf.ofFactor (.refl .plain) nofun hc).last hl fun hm => by
        obtain ⟨rfl, rfl⟩ := hf.starts.termTail (.inl hm) ht
        exact ⟨hends, hx⟩
      obtain ⟨d', hd, hgo⟩ := termTail_goes_on hends hr ht hend hx
      refine ⟨d', hd, fun r hr => ?_⟩
      rw [Rules.signedTerm_full]
      exact signedTerm_eq_ok.2 (.bare (P.kind_ne_of_inner hc inner noMinus)
        (P.kind_ne_of_inner hc inner noPlus) (term_eq_ok.2 ⟨left, m, hm, hgo r hr⟩))

end GoesOn

theorem termTail_differential {c : Cursor} {mark : Token} {ts : List Token} {left : Formula}
    {name : String} (hleft : left.lastFactor.isDifferential = false)
    (hmark : mark.kind = .differential) (hname : WritesName ts name) (hc : c.tokens = mark :: ts) :
    ∃ last, (full declared).termTail .plain left c =
        .ok (.juxtaposed .differential left (.differential (some name) false), last) ∧
      last.tokens = [] := by
  have here : c.kind = some (differentialMark false) := kind_of_tokens hc hmark
  have noTail : ∀ t ∈ ([] : List Token).head?, t.kind.isTrailing = true := by simp
  obtain ⟨last, named, hlast⟩ := symbolName_append noTail nofun hname (some mark.stop) c.limit
  rw [List.append_nil, ← Cursor.next_of_cons hc] at named
  have stops : Stops last := .inl (by simp [Cursor.kind, Cursor.kindAt, hlast])
  have follows : factor (full declared) .plain c =
      .ok (.differential (some name) false, last) :=
    factor_eq_ok.2 ⟨_, last, atom_eq_ok.2 (.differential here
      (differential_eq_ok.2 (.named named))), factorTail_of_stops stops⟩
  have shape : adjacency? (full declared).declared left.lastFactor .plain c =
      some .differential := by
    simp [adjacency?, startsFactor, here, differentialMark, Mode.plain]
  refine ⟨last, ?_, hlast⟩
  rw [Rules.termTail_full]
  exact termTail_eq_ok.2 (.juxtaposed hleft (by simp [here, differentialMark, factorSign?]) shape
    follows (termTail_of_stops stops))

end Grammar

namespace Formula

open Grammar (WritesName IntegralBounds)

variable {declared : List String}

/-- A closing differential ends an integral over one term and its name is what is
integrated over, unless a minus sign stands in front of the term, which then
negates the differential too, or the term ends in a formula that takes the
differential for its own: an aggregate, a limit or a bra. -/
theorem ofTokens_integral {D T V : List Token} {sign mark : Token} {lower upper : Option Formula}
    {lower' upper' : Option Expr} {t : Formula} {x : Expr} {name : String} {k : Nat} (limit : Nat)
    (hsign : sign.kind = .int) (hbounds : IntegralBounds declared D lower upper)
    (hlower : optionToExpr lower = .ok lower') (hupper : optionToExpr upper = .ok upper')
    (hterm : ofTokens declared T k = .ok t) (hrelation : t.isRelation = false)
    (hsum : t.isSum = false) (hneg : ∀ y, t ≠ .negated y)
    (hclosed : ∀ y, t.EndsWith y → y.isOpenEnded = false)
    (hfirst : ∀ u ∈ T.head?, u.kind ≠ .differential ∧ u.kind ≠ .partialSign)
    (hx : t.toExpr = .ok x) (hmark : mark.kind = .differential) (hname : WritesName V name) :
    ∃ f, ofTokens declared (sign :: (D ++ (T ++ mark :: V))) limit = .ok f ∧
      f = .integral lower upper (.juxtaposed .differential t (.differential (some name) false)) ∧
      f.toExpr = .ok (.integral lower' upper' x name) := by
  refine ⟨_, ?_, rfl, toExpr_integral name hlower hupper hx⟩
  have trailing : ∀ t ∈ (mark :: V).head?, t.kind.isTrailing = true := by
    simp [hmark, Token.Kind.isTrailing]
  have apart : (Cursor.start (mark :: V) 0).kind = some .differential := by
    simp [Cursor.start, Cursor.kind, Cursor.kindAt, hmark]
  have closes : Grammar.Closes (mark :: V) t := fun y hy h => by simp [hclosed y hy] at h
  have starts (p : Option Nat) : Grammar.StartsTerm ⟨T, p, k⟩ := by
    obtain ⟨_, h, -⟩ := Grammar.signedTerm_of_ofTokens hterm hrelation hsum p
    exact (Grammar.starts_full declared).signedTerm h
  obtain ⟨u, us, hT⟩ := Grammar.cons_of_kind (starts none).kind_ne_none
  obtain rfl : T = u :: us := hT
  have noBound : ∀ v ∈ (u :: us ++ mark :: V).head?, v.kind ≠ .underscore ∧ v.kind ≠ .caret := by
    rintro _ ⟨⟩
    have kind_ne {k : Token.Kind} (hsign : Grammar.isSign (some k) = false)
        (hk : ∀ c : Cursor, c.kind = some k → Grammar.startsFactor .plain c = false) :
        u.kind ≠ k := fun h => (starts none).kind_ne hsign hk (Grammar.kind_of_tokens rfl h)
    exact ⟨kind_ne rfl fun c hc => by simp [Grammar.startsFactor, hc],
      kind_ne rfl fun c hc => by simp [Grammar.startsFactor, hc]⟩
  obtain ⟨bounds, c₁, ⟨_, p, l⟩, h₁, h₂, hc₂⟩ :=
    hbounds.read (c := ⟨_, some sign.stop, limit⟩) noBound rfl
  obtain rfl : _ = u :: us ++ mark :: V := hc₂
  obtain ⟨last, body, hlast⟩ := Grammar.signedTerm_of_ofTokens hterm hrelation hsum p
  obtain ⟨d, hd, hgo⟩ := Grammar.signedTerm_goes_on (fun h => by cases apart.symm.trans h)
    (Grammar.likeness_append trailing (.of_other (by simp [hmark])) p l)
    (show (Grammar.rules declared (Grammar.sufficientDepth _)).signedTerm _ _ = _ from body) hlast
    closes hneg
  obtain ⟨after, htail, hafter⟩ := Grammar.termTail_differential (lastFactor_ne_differential hx)
    hmark hname ((Grammar.likeness declared (mark :: V) trailing).ended hd hlast)
  have unmarked (isPartial : Bool) : Cursor.kind ⟨u :: us ++ mark :: V, p, l⟩ ≠
      some (Grammar.differentialMark isPartial) := by
    intro h
    cases isPartial
    · exact (hfirst u rfl).1 (Option.some.inj h)
    · exact (hfirst u rfl).2 (Option.some.inj h)
  exact Grammar.ofTokens_of_atom (Grammar.atom_eq_ok.2 (.integral
    (Grammar.kind_of_tokens rfl hsign) (Grammar.integral_eq_ok.2 ⟨bounds, c₁, lower, upper, _, _,
      h₁, h₂, Grammar.integralBody_eq_ok.2 (.term unmarked (hgo _ htail)), rfl⟩))) hafter

/-- An argument without brackets leaves the differential. -/
theorem ofTokens_integral_bounded_sine : ∃ tokens f,
    Token.lex "\\int_a^\x7bx\x7d x\\sin x d t" = .ok tokens ∧
      ofTokens ["a", "x"] tokens 22 = .ok f ∧
      f.toExpr = .ok (.integral (some (.symbol "a")) (some (.symbol "x"))
        (.binary .mul (.symbol "x") (.apply .sin [.symbol "x"])) "t") := by
  let D : List Token := ⟨.underscore, "_", 4, 5⟩ :: ([⟨.symbol, "a", 5, 6⟩] ++
    ⟨.caret, "^", 6, 7⟩ :: (⟨.opening .curly, "\x7b", 7, 8⟩ :: ([⟨.symbol, "x", 8, 9⟩] ++
      [⟨.closing .curly, "\x7d", 9, 10⟩])))
  let T : List Token :=
    [⟨.symbol, "x", 11, 12⟩, ⟨.function .sin, "\\sin", 12, 16⟩, ⟨.symbol, "x", 17, 18⟩]
  let sine : Formula := .apply .sin [.symbol "x"] false
  let t : Formula := .juxtaposed .numberOrSymbol (.symbol "x") sine
  let V : List Token := [⟨.symbol, "t", 21, 22⟩]
  have inside : ofTokens ["a", "x"] [⟨.symbol, "x", 8, 9⟩] 9 = .ok (.symbol "x") := by rfl
  have bounds : IntegralBounds ["a", "x"] D (some (.symbol "a")) (some (.symbol "x")) :=
    .lowerUpper rfl (.plain (.symbol rfl)) rfl (.plain (.braced rfl inside rfl rfl))
  have body : ofTokens ["a", "x"] T 18 = .ok t := by rfl
  have closed (y : Formula) (hy : t.EndsWith y) : y.isOpenEnded = false := by
    obtain rfl | within := hy.eq_or_lastPart rfl
    · rfl
    obtain rfl | within := within.eq_or_lastPart rfl
    · rfl
    · rw [within.eq_whole rfl]
      rfl
  have lowered : t.toExpr = .ok (.binary .mul (.symbol "x") (.apply .sin [.symbol "x"])) := by
    have count : checkCount .sin 1 = .ok () := by rfl
    simp [t, sine, toExpr, listToExpr, count]
  obtain ⟨f, hf, -, hx⟩ : ∃ f, ofTokens ["a", "x"] (⟨.int, "\\int", 0, 4⟩ ::
      (D ++ (T ++ ⟨.differential, "d", 19, 20⟩ :: V))) 22 = .ok f ∧ f = _ ∧
      f.toExpr = .ok (.integral (some (.symbol "a")) (some (.symbol "x")) _ "t") :=
    ofTokens_integral 22 rfl bounds (by simp [optionToExpr, toExpr])
      (by simp [optionToExpr, toExpr]) body rfl rfl (by simp [t]) closed (by simp [T]) lowered rfl
      ⟨_, rfl, rfl⟩
  exact ⟨_, f, by rfl, hf, hx⟩

/-- A minus sign in front of the term is in the way of the differential. -/
theorem ofTokens_integral_negated :
    let T : List Token := [⟨.minus, "-", 5, 6⟩, ⟨.symbol, "x", 6, 7⟩]
    let tokens : List Token :=
      ⟨.int, "\\int", 0, 4⟩ :: ([] ++ (T ++ ⟨.differential, "d", 8, 9⟩ :: [⟨.symbol, "x", 10, 11⟩]))
    Token.lex "\\int -x d x" = .ok tokens ∧ IntegralBounds ["x"] [] none none ∧
      ofTokens ["x"] T 7 = .ok (.negated (.symbol "x")) ∧
      (negated (.symbol "x")).toExpr = .ok (.negated (.symbol "x")) ∧
      WritesName [⟨.symbol, "x", 10, 11⟩] "x" ∧ ∃ f, ofTokens ["x"] tokens 11 = .ok f ∧
        f.toExpr = .error .missingDifferential := by
  refine ⟨by rfl, .none, by rfl, by simp [toExpr], ⟨_, rfl, rfl⟩, _, by rfl, ?_⟩
  rw [toExpr]
  rfl

end Formula

end AnswerKey

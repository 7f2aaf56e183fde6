import AnswerKey.Proofs.Grammar.Steps.Binder
import AnswerKey.Proofs.Grammar.Twins
import Mathlib.Data.List.Chain

/-! Where tokens stand matters in bare arguments only: token lists that say the
same are read alike, or are refused alike at the same token. -/
namespace AnswerKey

namespace Token

def touching (ts : List Token) : List Bool :=
  List.zipWith (fun t u => t.stop == u.start) ts ts.tail

def Ordered (ts : List Token) : Prop := ts.IsChain fun t u => t.stop ≤ u.start

instance (ts : List Token) : Decidable (Ordered ts) :=
  inferInstanceAs (Decidable (List.IsChain _ _))

end Token

namespace Grammar.Twins

variable (T : Twins)

inductive SameFailure : Failure → Failure → Prop
  | refused {e e' : SyntaxError} (h : SameError T.first T.second T.limit T.limit' e e') :
      SameFailure (.refused e) (.refused e')
  | exhausted : SameFailure .exhausted .exhausted

def SameResult {α : Type} (r s : α × Cursor) : Prop := s.1 = r.1 ∧ T.Beside r.2 s.2

/-- Both attempts fail at the same place, or both give the same and leave cursors
that stand side by side. -/
abbrev Agree {α : Type} (a b : Attempt (α × Cursor)) : Prop := Both T.SameFailure T.SameResult a b

/-- Modes that differ in bars only, where there are none. A bare argument is read
where neighbours touch alike. -/
structure Fits (mode mode' : Mode) : Prop where
  bareArgument : mode'.bareArgument = mode.bareArgument
  limitTarget : mode'.limitTarget = mode.limitTarget
  insideBars : (∃ t ∈ T.first, t.kind = .pipe) → mode'.insideBars = mode.insideBars
  flush : mode.bareArgument = true → T.Flush

/-- Rules that do alike at cursors that stand side by side. -/
structure Kept (g : Rules) : Prop where
  spaced : T.Spaced
  sum {mode mode' : Mode} {c d : Cursor} (hm : T.Fits mode mode') (hc : T.Beside c d) :
    T.Agree (g.sum mode c) (g.sum mode' d)
  sumTail {mode mode' : Mode} {c d : Cursor} (hm : T.Fits mode mode') (left : Formula)
    (hc : T.Beside c d) : T.Agree (g.sumTail mode left c) (g.sumTail mode' left d)
  signedTerm {mode mode' : Mode} {c d : Cursor} (hm : T.Fits mode mode') (hc : T.Beside c d) :
    T.Agree (g.signedTerm mode c) (g.signedTerm mode' d)
  termTail {mode mode' : Mode} {c d : Cursor} (hm : T.Fits mode mode') (left : Formula)
    (hc : T.Beside c d) : T.Agree (g.termTail mode left c) (g.termTail mode' left d)
  signedFactor {mode mode' : Mode} {c d : Cursor} (hm : T.Fits mode mode') (hc : T.Beside c d) :
    T.Agree (g.signedFactor mode c) (g.signedFactor mode' d)
  factorTail {mode mode' : Mode} {c d : Cursor} (hm : T.Fits mode mode') (base : Formula)
    (hc : T.Beside c d) : T.Agree (g.factorTail mode base c) (g.factorTail mode' base d)
  exponent {c d : Cursor} (hc : T.Beside c d) : T.Agree (g.exponent c) (g.exponent d)
  arguments {c d : Cursor} (δ : Delimiter) (hc : T.Beside c d) :
    T.Agree (g.arguments δ c) (g.arguments δ d)

variable {T} {α β : Type} {g : Rules} {mode mode' : Mode} {c d : Cursor} {δ : Delimiter}
  {f : Builtin}

/-! Attempts step by step. -/

theorem Agree.result (x : α) (h : T.Beside c d) :
    T.Agree (Except.ok (x, c)) (Except.ok (x, d)) := .ok ⟨rfl, h⟩

theorem Agree.refuse (h : T.Beside c d) (e : Expected) :
    T.Agree (refuse c e : Attempt (α × Cursor)) (Grammar.refuse d e) :=
  .error (.refused (h.errorAt e))

theorem Agree.bind {a b : Attempt (α × Cursor)} {k l : α × Cursor → Attempt (β × Cursor)}
    (h : T.Agree a b) (hk : ∀ x c d, T.Beside c d → T.Agree (k (x, c)) (l (x, d))) :
    T.Agree (a >>= k) (b >>= l) := by
  refine Both.bind h ?_
  rintro ⟨_, c⟩ ⟨x, d⟩ ⟨rfl, hc⟩
  exact hk x c d hc

theorem Agree.lift {a b : Except SyntaxError (α × Cursor)}
    (h : Both (SameError T.first T.second T.limit T.limit') T.SameResult a b) :
    T.Agree (liftM a) (liftM b) := h.mapError fun _ _ => SameFailure.refused

theorem Beside.expect (h : T.Beside c d) (k : Token.Kind) (e : Expected) :
    Both (SameError T.first T.second T.limit T.limit') T.Beside (c.expect k e) (d.expect k e) := by
  unfold Cursor.expect
  rw [h.kind]
  split
  · exact .ok h.next
  · exact .error (h.errorAt e)

theorem Agree.expect {k l : Cursor → Attempt (β × Cursor)} (h : T.Beside c d)
    (kind : Token.Kind) (e : Expected)
    (hk : ∀ c d, T.Beside c d → T.Agree (k c) (l d)) :
    T.Agree (liftM (c.expect kind e) >>= k) (liftM (d.expect kind e) >>= l) :=
  Both.bind ((h.expect kind e).mapError fun _ _ => SameFailure.refused) hk

/-! Names. -/

theorem Beside.subscript (h : T.Beside c d) :
    Both (SameError T.first T.second T.limit T.limit') T.SameResult (subscript c)
      (subscript d) := by
  unfold Grammar.subscript
  rw [h.kind]
  split
  · have words := h.next.words
    have texts : (d.next.tokens.takeWhile isWordPart).map (·.text) =
        (c.next.tokens.takeWhile isWordPart).map (·.text) := by
      simpa [Token.written, Function.comp_def] using congrArg (List.map Prod.snd) words
    have length : (d.next.tokens.takeWhile isWordPart).length =
        (c.next.tokens.takeWhile isWordPart).length := by
      simpa using congrArg List.length words
    have behind := h.next.skip (c.next.tokens.takeWhile isWordPart).length
    simp only [texts, length]
    split
    · exact .error (behind.errorAt _)
    · exact .bind (behind.expect _ _) fun _ _ h => .ok ⟨rfl, h⟩
  · obtain ⟨hc, hd⟩ | ⟨digit, c', d', hc, hd, h'⟩ := h.takeDigit
    · rw [hc, hd, h.text]
      dsimp only
      split
      · exact .ok ⟨rfl, h.next⟩
      · exact .error (h.errorAt _)
    · rw [hc, hd]
      exact .ok ⟨rfl, h'⟩

theorem Beside.symbolName (h : T.Beside c d) :
    Both (SameError T.first T.second T.limit T.limit') T.SameResult (symbolName c)
      (symbolName d) := by
  unfold Grammar.symbolName
  rw [h.kind, h.next.kind, h.text]
  split
  · split
    · refine .bind h.next.next.subscript ?_
      rintro ⟨_, c⟩ ⟨name, d⟩ ⟨rfl, hs⟩
      exact .ok ⟨rfl, hs⟩
    · exact .ok ⟨rfl, h.next⟩
  · exact .error (h.errorAt _)

namespace Fits

theorem plain : T.Fits .plain .plain := ⟨rfl, rfl, fun _ => rfl, nofun⟩

theorem bars : T.Fits .bars .bars := ⟨rfl, rfl, fun _ => rfl, nofun⟩

theorem target : T.Fits { limitTarget := true } { limitTarget := true } :=
  ⟨rfl, rfl, fun _ => rfl, nofun⟩

theorem body (hm : T.Fits mode mode') :
    T.Fits { mode with bareArgument := false } { mode' with bareArgument := false } :=
  ⟨rfl, hm.limitTarget, hm.insideBars, nofun⟩

theorem argument (hm : T.Fits mode mode') (flush : T.Flush) :
    T.Fits { bareArgument := true, insideBars := mode.insideBars }
      { bareArgument := true, insideBars := mode'.insideBars } :=
  ⟨rfl, rfl, hm.insideBars, fun _ => flush⟩

theorem insideBars_eq (hm : T.Fits mode mode') (hc : T.Beside c d) (here : c.kind = some .pipe) :
    mode'.insideBars = mode.insideBars := hm.insideBars (hc.mem_of_kind here)

end Fits

namespace Beside

theorem startsFactor (hc : T.Beside c d) (hm : T.Fits mode mode') :
    startsFactor mode' d = startsFactor mode c := by
  unfold Grammar.startsFactor
  rw [hc.kind]
  split
  · next here => rw [hm.insideBars_eq hc here]
  all_goals rfl

theorem startsApplication {declared : List String} (hc : T.Beside c d) (hm : T.Fits mode mode') :
    startsApplication declared mode' d = startsApplication declared mode c := by
  unfold Grammar.startsApplication
  rw [hc.kind, hc.kindAt 1, hc.text]
  split
  any_goals rfl
  next here => rw [hm.insideBars_eq hc here]

theorem adjacency {declared : List String} (hc : T.Beside c d) (hm : T.Fits mode mode')
    (last : Formula) : adjacency? declared last mode' d = adjacency? declared last mode c := by
  have goesOn (bare : mode.bareArgument = true) (isApplication : Bool) :
      bareArgumentGoesOn last isApplication d = bareArgumentGoesOn last isApplication c := by
    unfold bareArgumentGoesOn
    rw [hc.kind, hc.touchesPrevious (hm.flush bare)]
  unfold adjacency?
  rw [hc.startsFactor hm, hc.kind, hm.bareArgument, hc.startsApplication hm]
  cases bare : mode.bareArgument with
  | true => simp only [goesOn bare]
  | false => rfl

theorem sideFollows (hc : T.Beside c d) : sideFollows d = sideFollows c := by
  simp only [Grammar.sideFollows, hc.kind, hc.kindAt]

end Beside

namespace Kept

/-! Brackets, operands, roots, bars and applications. -/

theorem ofBracketed (hg : T.Kept g) (δ : Delimiter) (hc : T.Beside c d) :
    T.Agree (bracketed g δ c) (bracketed g δ d) :=
  .bind (hg.sum .plain hc) fun x _ _ hc => .expect hc _ _ fun _ _ hc => .result x hc

theorem ofGroup (hg : T.Kept g) (hc : T.Beside c d) : T.Agree (group g δ c) (group g δ d) :=
  .bind (hg.ofBracketed δ hc.next) fun _ _ _ hc => .result _ hc

theorem ofSymbolOrCall (hg : T.Kept g) (hc : T.Beside c d) :
    T.Agree (symbolOrCall g c) (symbolOrCall g d) := by
  refine .bind (.lift hc.symbolName) fun name c d hc => ?_
  dsimp only
  rw [hc.kind]
  split
  · exact .bind (hg.arguments .round hc.next) fun _ _ _ hc => .result _ hc
  · exact .result _ hc

theorem ofOperand (hg : T.Kept g) (allowSymbol : Bool) (hc : T.Beside c d) :
    T.Agree (operand g allowSymbol c) (operand g allowSymbol d) := by
  unfold operand
  rw [hc.kind, hc.text]
  split
  · exact hg.ofBracketed .curly hc.next
  · obtain ⟨hn, hn'⟩ | ⟨digit, c', d', hs, hs', hc'⟩ := hc.takeDigit
    · rw [hn, hn']
      exact .refuse hc _
    · rw [hs, hs']
      exact .result _ hc'
  · split
    · exact .result _ hc.next
    · exact .refuse hc _
  · split
    · exact .result _ hc.next
    · exact .refuse hc _
  · exact .refuse hc _

theorem ofLogBase (hg : T.Kept g) (hc : T.Beside c d) :
    T.Agree (logBase g f c) (logBase g f d) := by
  unfold logBase
  rw [hc.kind]
  split
  · exact .bind (hg.ofOperand true hc.next) fun base _ _ hc => .result (some base) hc
  · exact .result none hc

theorem ofFunctionExponent (hg : T.Kept g) (hc : T.Beside c d) :
    T.Agree (functionExponent g f c) (functionExponent g f d) := by
  unfold functionExponent
  rw [hc.kind]
  split
  · refine .bind (hg.exponent hc.next) fun e c d hc => ?_
    dsimp only
    split
    · split
      · split
        · exact .result _ hc
        · exact .result _ hc
      · exact .result _ hc
    · exact .refuse hc _
  · exact .result _ hc

theorem ofFunctionArguments (hg : T.Kept g) (hm : T.Fits mode mode') (flush : T.Flush)
    (hc : T.Beside c d) :
    T.Agree (functionArguments g f mode c) (functionArguments g f mode' d) := by
  have delimited (δ : Delimiter) := Agree.bind (hg.arguments δ hc.next)
    (k := fun r => Except.ok ((r.1, true), r.2)) (l := fun r => Except.ok ((r.1, true), r.2))
    fun args _ _ hc => .result (args, true) hc
  unfold functionArguments
  rw [hc.kind]
  split
  · exact .bind (hg.ofOperand true hc) fun bra _ _ hc =>
      .bind (hg.ofOperand true hc) fun ket _ _ hc => .result ([bra, ket], true) hc
  · dsimp only
    split
    · exact delimited .round
    · exact delimited .square
    · exact delimited .curly
    · split
      · exact .bind (hg.signedTerm (hm.argument flush) hc) fun x _ _ hc => .result ([x], false) hc
      · exact .refuse hc _

theorem ofApplication (hg : T.Kept g) (hm : T.Fits mode mode') (flush : T.Flush)
    (hc : T.Beside c d) : T.Agree (application g f mode c) (application g f mode' d) := by
  refine .bind (hg.ofLogBase hc) fun base _ _ hc => ?_
  refine .bind (hg.ofFunctionExponent hc) fun ⟨f, power⟩ _ _ hc => ?_
  refine .bind (hg.ofFunctionArguments hm flush hc) fun ⟨args, delimited⟩ _ _ hc => ?_
  cases power with
  | some x => exact .result _ hc
  | none => exact .result _ hc

theorem ofRoot (hg : T.Kept g) (hc : T.Beside c d) : T.Agree (root g c) (root g d) := by
  unfold root
  rw [hc.kind]
  split
  · exact .bind (hg.ofBracketed .square hc.next) fun index _ _ hc =>
      .bind (hg.ofOperand true hc) fun _ _ _ hc => .result _ hc
  · exact .bind (hg.ofOperand true hc) fun _ _ _ hc => .result _ hc

theorem ofOperands (hg : T.Kept g) (whole : Formula → Formula → Formula) (hc : T.Beside c d) :
    T.Agree (do
      let (x, c) ← operand g false c
      let (y, c) ← operand g true c
      return (whole x y, c)) (do
      let (x, d) ← operand g false d
      let (y, d) ← operand g true d
      return (whole x y, d)) :=
  .bind (hg.ofOperand false hc) fun x _ _ hc =>
    .bind (hg.ofOperand true hc) fun y _ _ hc => .result (whole x y) hc

theorem ofFraction (hg : T.Kept g) (hc : T.Beside c d) : T.Agree (fraction g c) (fraction g d) :=
  hg.ofOperands .fraction hc

theorem ofBinomial (hg : T.Kept g) (hc : T.Beside c d) : T.Agree (binomial g c) (binomial g d) :=
  hg.ofOperands .binomial hc

theorem ofBars (hg : T.Kept g) (hc : T.Beside c d) : T.Agree (bars g c) (bars g d) := by
  refine .bind (hg.sum .bars hc) fun x c d hc => ?_
  dsimp only
  rw [hc.kind]
  split
  · exact .result _ hc.next
  · exact .result _ hc.next
  · exact .refuse hc _

theorem ofAngle (hg : T.Kept g) (hc : T.Beside c d) : T.Agree (angle g c) (angle g d) := by
  refine .bind (hg.sum .bars hc) fun bra _ _ hc => .expect hc _ _ fun c d hc => ?_
  dsimp only
  rw [hc.startsFactor .bars]
  split
  · exact .bind (hg.sum .bars hc) fun ket _ _ hc => .expect hc _ _ fun _ _ hc => .result _ hc
  · exact .result _ hc

/-! Differentials, sums, products, integrals and limits. -/

theorem ofDifferential (isPartial : Bool) (hc : T.Beside c d) :
    T.Agree (differential isPartial c) (differential isPartial d) := by
  unfold differential
  rw [hc.kind]
  split
  · exact .bind (.lift hc.symbolName) fun _ _ _ hc => .result _ hc
  · exact .result _ hc

theorem ofIndexBinding (hg : T.Kept g) (hc : T.Beside c d) :
    T.Agree (indexBinding g c) (indexBinding g d) :=
  .expect hc _ _ fun _ _ hc => .bind (.lift hc.symbolName) fun name _ _ hc =>
    .expect hc _ _ fun _ _ hc => .bind (hg.ofBracketed .curly hc) fun lower _ _ hc =>
      .result (name, lower) hc

theorem ofBound {α β : Type} {lower lower' : Cursor → Attempt (α × Cursor)}
    {upper upper' : Cursor → Attempt (β × Cursor)}
    (hlower : ∀ {c d}, T.Beside c d → T.Agree (lower c) (lower' d))
    (hupper : ∀ {c d}, T.Beside c d → T.Agree (upper c) (upper' d))
    (bounds : Option α × Option β) (hc : T.Beside c d) :
    T.Agree (oneBound lower upper bounds c) (oneBound lower' upper' bounds d) := by
  unfold oneBound
  rw [hc.kind]
  split
  · exact .bind (hlower hc.next) fun _ _ _ hc => .result _ hc
  · exact .bind (hupper hc.next) fun _ _ _ hc => .result _ hc
  · exact .result _ hc

theorem ofAggregateBound (hg : T.Kept g) (bounds : Option (String × Formula) × Option Formula)
    (hc : T.Beside c d) : T.Agree (aggregateBound g bounds c) (aggregateBound g bounds d) := by
  rw [aggregateBound_eq, aggregateBound_eq]
  exact ofBound hg.ofIndexBinding (hg.ofOperand true) bounds hc

theorem ofAggregate (hg : T.Kept g) (kind : Aggregate) (hm : T.Fits mode mode')
    (hc : T.Beside c d) : T.Agree (aggregate g kind mode c) (aggregate g kind mode' d) := by
  refine .bind (hg.ofAggregateBound (none, none) hc) fun bounds _ _ hc => ?_
  refine .bind (hg.ofAggregateBound bounds hc) fun ⟨lower, upper⟩ _ _ hc => ?_
  match lower, upper with
  | none, _ => exact .refuse hc _
  | some _, none => exact .refuse hc _
  | some (name, lower), some upper =>
    exact .bind (hg.signedTerm hm.body hc) fun _ _ _ hc => .result _ hc

theorem ofIntegralLimit (hg : T.Kept g) (hc : T.Beside c d) :
    T.Agree (integralLimit g c) (integralLimit g d) := by
  unfold integralLimit
  rw [hc.kind]
  split
  · exact .bind (hg.ofOperand true hc.next) fun _ _ _ hc => .result _ hc
  · exact hg.ofOperand true hc

theorem ofIntegralBound (hg : T.Kept g) (bounds : Option Formula × Option Formula)
    (hc : T.Beside c d) : T.Agree (integralBound g bounds c) (integralBound g bounds d) := by
  rw [integralBound_eq, integralBound_eq]
  exact ofBound hg.ofIntegralLimit hg.ofIntegralLimit bounds hc

theorem ofIntegralBody (hg : T.Kept g) (hm : T.Fits mode mode') (hc : T.Beside c d) :
    T.Agree (integralBody g mode c) (integralBody g mode' d) := by
  have differentialFirst (isPartial : Bool) : T.Agree (do
      let (x, c) ← differential isPartial c.next
      if Grammar.startsFactor mode c then
        let (y, c) ← g.signedTerm mode c
        return (.juxtaposed .differential x y, c)
      else
        return (x, c)) (do
      let (x, d) ← differential isPartial d.next
      if Grammar.startsFactor mode' d then
        let (y, d) ← g.signedTerm mode' d
        return (.juxtaposed .differential x y, d)
      else
        return (x, d)) := by
    refine .bind (ofDifferential isPartial hc.next) fun x c d hc => ?_
    dsimp only
    rw [hc.startsFactor hm]
    split
    · exact .bind (hg.signedTerm hm hc) fun _ _ _ hc => .result _ hc
    · exact .result _ hc
  unfold integralBody
  dsimp only
  rw [hc.kind]
  split
  · exact differentialFirst false
  · exact differentialFirst true
  · exact hg.signedTerm hm hc

theorem ofIntegral (hg : T.Kept g) (hm : T.Fits mode mode') (hc : T.Beside c d) :
    T.Agree (integral g mode c) (integral g mode' d) :=
  .bind (hg.ofIntegralBound (none, none) hc) fun bounds _ _ hc =>
    .bind (hg.ofIntegralBound bounds hc) fun _ _ _ hc =>
      .bind (hg.ofIntegralBody hm.body hc) fun _ _ _ hc => .result _ hc

theorem ofSide (hc : T.Beside c d) : T.Agree (side c) (side d) := by
  unfold side
  dsimp only
  rw [hc.kind, hc.kindAt 1, hc.next.kind, hc.next.next.kind]
  split
  · split
    · split
      · exact .expect hc.next.next.next _ _ fun _ _ hc => .result _ hc
      · exact .refuse hc.next.next _
    · split
      · exact .result _ hc.next.next
      · exact .result _ hc.next
  · split
    · split
      · exact .result _ hc.next
      · exact .result _ hc
    · exact .result _ hc

theorem ofLimit (hg : T.Kept g) (hm : T.Fits mode mode') (hc : T.Beside c d) :
    T.Agree (Grammar.limit g mode c) (Grammar.limit g mode' d) :=
  .expect hc _ _ fun _ _ hc => .expect hc _ _ fun _ _ hc =>
    .bind (.lift hc.symbolName) fun _ _ _ hc => .expect hc _ _ fun _ _ hc =>
      .bind (hg.sum .target hc) fun _ _ _ hc => .bind (ofSide hc) fun _ _ _ hc =>
        .expect hc _ _ fun _ _ hc => .bind (hg.signedTerm hm.body hc) fun _ _ _ hc =>
          .result _ hc

/-! Atoms, factors, terms and sums. -/

theorem ofAtom (hg : T.Kept g) (hm : T.Fits mode mode') (hc : T.Beside c d) :
    T.Agree (atom g mode c) (atom g mode' d) := by
  have wrapped (δ : Delimiter) (f : Builtin) := Agree.bind (hg.ofBracketed δ hc.next)
    (k := fun r => Except.ok (Formula.apply f [r.1] true, r.2))
    (l := fun r => Except.ok (Formula.apply f [r.1] true, r.2))
    fun _ _ _ hc => .result _ hc
  unfold atom
  rw [hc.kind, hc.text]
  split
  · exact .result _ hc.next
  · exact hg.ofSymbolOrCall hc
  · exact .result _ hc.next
  · exact wrapped .floor .floor
  · exact wrapped .ceil .ceil
  · exact hg.ofAngle hc.next
  · exact hg.ofGroup hc
  · next here =>
    rw [hm.insideBars_eq hc here]
    split
    · exact .refuse hc _
    · exact hg.ofBars hc.next
  · next f here =>
    obtain none | flush := hg.spaced
    · obtain ⟨t, ht, hk⟩ := hc.mem_of_kind here
      exact absurd hk (none t ht f)
    · exact hg.ofApplication hm flush hc.next
  · exact hg.ofRoot hc.next
  · exact hg.ofFraction hc.next
  · exact hg.ofBinomial hc.next
  · exact hg.ofAggregate .sum hm hc.next
  · exact hg.ofAggregate .product hm hc.next
  · exact hg.ofIntegral hm hc.next
  · exact hg.ofLimit hm hc.next
  · exact ofDifferential false hc.next
  · exact ofDifferential true hc.next
  · exact .refuse hc _

theorem ofFactor (hg : T.Kept g) (hm : T.Fits mode mode') (hc : T.Beside c d) :
    T.Agree (factor g mode c) (factor g mode' d) :=
  .bind (hg.ofAtom hm hc) fun base _ _ hc => hg.factorTail hm base hc

theorem ofFactorTail (hg : T.Kept g) (hm : T.Fits mode mode') (base : Formula)
    (hc : T.Beside c d) :
    T.Agree (Grammar.factorTail g mode base c) (Grammar.factorTail g mode' base d) := by
  unfold Grammar.factorTail
  rw [hc.kind, hm.limitTarget, hc.sideFollows]
  split
  · split
    · exact .result _ hc
    · refine .bind (hg.exponent hc.next) fun e _ _ hc => ?_
      cases e with
      | value x => exact hg.factorTail hm _ hc
      | dagger => exact hg.factorTail hm _ hc
      | prime => exact hg.factorTail hm _ hc
  · exact hg.factorTail hm _ hc.next
  · exact hg.factorTail hm _ hc.next
  · exact .result _ hc

theorem ofExponent (hg : T.Kept g) (hc : T.Beside c d) :
    T.Agree (Grammar.exponent g c) (Grammar.exponent g d) := by
  have ofFormula {a b : Attempt (Formula × Cursor)} (h : T.Agree a b) :=
    h.bind (k := fun r => Except.ok (Exponent.value r.1, r.2))
      (l := fun r => Except.ok (Exponent.value r.1, r.2)) fun _ _ _ hc => .result _ hc
  have marker : bracedMarker? d = bracedMarker? c := by simp only [bracedMarker?, hc.kindAt]
  unfold Grammar.exponent
  dsimp only
  rw [hc.kind, hc.text, marker]
  split
  · split
    · exact .result _ (hc.skip 3)
    · exact ofFormula (hg.ofBracketed .curly hc.next)
  · exact .result _ hc.next
  · exact .result _ hc.next
  · exact .result _ hc.next
  · refine .bind (hg.exponent hc.next) fun e _ _ hc => ?_
    cases e with
    | value x => exact .result _ hc
    | dagger => exact .refuse hc _
    | prime => exact .refuse hc _
  · obtain ⟨hn, hn'⟩ | ⟨digit, c', d', hs, hs', hc'⟩ := hc.takeDigit
    · rw [hn, hn']
      exact .refuse hc _
    · rw [hs, hs']
      exact .result _ hc'
  · exact .result _ hc.next
  · exact .result _ hc.next
  · exact ofFormula (hg.ofGroup hc)
  · exact ofFormula (hg.ofFraction hc.next)
  · exact ofFormula (hg.ofBinomial hc.next)
  · exact ofFormula (hg.ofRoot hc.next)
  · exact .refuse hc _

theorem ofSignedFactor (hg : T.Kept g) (hm : T.Fits mode mode') (hc : T.Beside c d) :
    T.Agree (Grammar.signedFactor g mode c) (Grammar.signedFactor g mode' d) := by
  unfold Grammar.signedFactor
  rw [hc.kind]
  split
  · exact .bind (hg.signedFactor hm hc.next) fun _ _ _ hc => .result _ hc
  · exact hg.signedFactor hm hc.next
  · exact hg.ofFactor hm hc

theorem ofTerm (hg : T.Kept g) (hm : T.Fits mode mode') (hc : T.Beside c d) :
    T.Agree (term g mode c) (term g mode' d) :=
  .bind (hg.ofFactor hm hc) fun left _ _ hc => hg.termTail hm left hc

theorem ofTermTail (hg : T.Kept g) (hm : T.Fits mode mode') (left : Formula)
    (hc : T.Beside c d) :
    T.Agree (Grammar.termTail g mode left c) (Grammar.termTail g mode' left d) := by
  have explicit (op : Operation) := Agree.bind (hg.signedFactor hm hc.next)
    (k := fun r => g.termTail mode (.binary op left r.1) r.2)
    (l := fun r => g.termTail mode' (.binary op left r.1) r.2)
    fun right _ _ hc => hg.termTail hm (.binary op left right) hc
  unfold Grammar.termTail
  dsimp only
  rw [hc.kind, hm.bareArgument, hc.adjacency hm]
  split
  · exact .result _ hc
  · split
    · split
      · exact .result _ hc
      · exact explicit .mul
    · split
      · exact .result _ hc
      · exact explicit .div
    · split
      · exact .bind (hg.ofFactor hm hc) fun right _ _ hc => hg.termTail hm _ hc
      · exact .result _ hc

theorem ofSignedTerm (hg : T.Kept g) (hm : T.Fits mode mode') (hc : T.Beside c d) :
    T.Agree (Grammar.signedTerm g mode c) (Grammar.signedTerm g mode' d) := by
  unfold Grammar.signedTerm
  rw [hc.kind]
  split
  · exact .bind (hg.signedTerm hm hc.next) fun _ _ _ hc => .result _ hc
  · exact hg.signedTerm hm hc.next
  · exact hg.ofTerm hm hc

theorem ofSum (hg : T.Kept g) (hm : T.Fits mode mode') (hc : T.Beside c d) :
    T.Agree (Grammar.sum g mode c) (Grammar.sum g mode' d) :=
  .bind (hg.signedTerm hm hc) fun left _ _ hc => hg.sumTail hm left hc

theorem ofSumTail (hg : T.Kept g) (hm : T.Fits mode mode') (left : Formula)
    (hc : T.Beside c d) :
    T.Agree (Grammar.sumTail g mode left c) (Grammar.sumTail g mode' left d) := by
  have more (op : Operation) := Agree.bind (hg.signedTerm hm hc.next)
    (k := fun r => g.sumTail mode (.binary op left r.1) r.2)
    (l := fun r => g.sumTail mode' (.binary op left r.1) r.2)
    fun right _ _ hc => hg.sumTail hm (.binary op left right) hc
  unfold Grammar.sumTail
  dsimp only
  rw [hc.kind, hc.kindAt 1, hm.limitTarget]
  split
  · split
    · exact .result _ hc
    · exact more .add
  · split
    · exact .result _ hc
    · exact more .sub
  · exact .result _ hc

theorem ofArguments (hg : T.Kept g) (hc : T.Beside c d) :
    T.Agree (Grammar.arguments g δ c) (Grammar.arguments g δ d) := by
  refine .bind (hg.sum .plain hc) fun x c d hc => ?_
  dsimp only
  rw [hc.kind]
  split
  · exact .bind (hg.arguments δ hc.next) fun rest _ _ hc => .result (x :: rest) hc
  · split
    · exact .result [x] hc.next
    · exact .refuse hc _

theorem ofMember (hg : T.Kept g) (hc : T.Beside c d) : T.Agree (member g c) (member g d) := by
  refine .bind (hg.sum .plain hc) fun left c d hc => ?_
  dsimp only
  rw [hc.kind]
  split
  · refine .bind (hg.sum .plain hc.next) fun right c d hc => ?_
    dsimp only
    rw [hc.kind]
    split
    · exact .refuse hc _
    · exact .result _ hc
  · exact .result left hc

theorem ofWholeMember (hg : T.Kept g) (hc : T.Beside c d) :
    Both T.SameFailure Eq (wholeMember g c) (wholeMember g d) := by
  refine .bind (hg.ofMember hc) ?_
  rintro ⟨_, c⟩ ⟨x, d⟩ ⟨rfl, hc⟩
  dsimp only
  simp only [hc.tokens_eq_nil]
  split
  · exact .ok rfl
  · exact .error (.refused (hc.errorAt _))

theorem deeper (hg : T.Kept g) : T.Kept g.deeper where
  spaced := hg.spaced
  sum := hg.ofSum
  sumTail := hg.ofSumTail
  signedTerm := hg.ofSignedTerm
  termTail := hg.ofTermTail
  signedFactor := hg.ofSignedFactor
  factorTail := hg.ofFactorTail
  exponent := hg.ofExponent
  arguments _ := hg.ofArguments

end Kept

theorem kept_exhausted (spaced : T.Spaced) (declared : List String) :
    T.Kept (.exhausted declared) where
  spaced := spaced
  sum _ _ := .error .exhausted
  sumTail _ _ _ := .error .exhausted
  signedTerm _ _ := .error .exhausted
  termTail _ _ _ := .error .exhausted
  signedFactor _ _ := .error .exhausted
  factorTail _ _ _ := .error .exhausted
  exponent _ := .error .exhausted
  arguments _ _ := .error .exhausted

theorem kept_rules (spaced : T.Spaced) (declared : List String) (depth : Nat) :
    T.Kept (rules declared depth) := by
  induction depth with
  | zero => exact kept_exhausted spaced declared
  | succ depth ih => exact ih.deeper

theorem flush_of_touching (hf : Token.Ordered T.first) (hs : Token.Ordered T.second)
    (same : Token.touching T.second = Token.touching T.first) : T.Flush := by
  have behind {ts : List Token} (h : Token.Ordered ts) {i : Nat} {t v : Token}
      (ht : ts[i]? = some t) (hv : ts[i + 1]? = some v) : t.stop ≤ v.start := by
    obtain ⟨_, rfl⟩ := List.getElem?_eq_some_iff.1 ht
    obtain ⟨hi, rfl⟩ := List.getElem?_eq_some_iff.1 hv
    exact List.isChain_iff_getElem.1 h i hi
  have touches {ts : List Token} {i : Nat} {t v : Token} (ht : ts[i]? = some t)
      (hv : ts[i + 1]? = some v) : (Token.touching ts)[i]? = some (t.stop == v.start) := by
    simp [Token.touching, List.getElem?_zipWith, ht, hv]
  intro i k t v u w ht hv hu hw
  have hf := behind hf ht hv
  have hs := behind hs hu hw
  have touch : (u.stop == w.start) = (t.stop == v.start) := by
    have := touches hu hw
    rw [same, touches ht hv] at this
    exact (Option.some.inj this).symm
  rw [Bool.eq_iff_iff, beq_iff_eq, beq_iff_eq] at touch
  omega

end Grammar.Twins

open Grammar (Twins)

/-- Lists of tokens that say the same write the same formula, or are refused at
the same token with the same message. Where functions are written the tokens also
have to touch their neighbours alike, since a blank ends an argument without
brackets. -/
theorem Formula.ofTokens_up_to_spacing (declared : List String) {ts us : List Token}
    (limit limit' : Nat) (alike : us.map Token.written = ts.map Token.written)
    (spaced : (∀ t ∈ ts, ∀ f, t.kind ≠ .function f) ∨
      Token.Ordered ts ∧ Token.Ordered us ∧ Token.touching us = Token.touching ts) :
    Both (SameError ts us limit limit') Eq (ofTokens declared ts limit)
      (ofTokens declared us limit') := by
  let T : Twins := ⟨ts, us, limit, limit', alike⟩
  have kept := Twins.kept_rules (T := T)
    (spaced.imp id fun ⟨hf, hs, same⟩ => Twins.flush_of_touching hf hs same) declared
  have start : T.Beside (.start ts limit) (.start us limit') := Twins.Beside.start
  have depth : Grammar.sufficientDepth (.start us limit') =
      Grammar.sufficientDepth (.start ts limit) := by
    rw [Grammar.sufficientDepth, start.size, Grammar.sufficientDepth]
  have whole := (kept (Grammar.sufficientDepth (.start ts limit))).ofWholeMember start
  unfold ofTokens
  dsimp only
  rw [depth]
  generalize Grammar.wholeMember _ (Cursor.start ts limit) = a at whole
  generalize Grammar.wholeMember _ (Cursor.start us limit') = b at whole
  cases whole with
  | ok h => exact .ok h
  | error h =>
    cases h with
    | refused h => exact .error h
    | exhausted => exact .error (start.errorAt _)

/-- The texts `\sin 2x` and `\sin  2x`. -/
theorem Formula.ofTokens_up_to_spacing_of_argument :
    Both (SameError [⟨.function .sin, "\\sin", 0, 4⟩, ⟨.number, "2", 5, 6⟩, ⟨.symbol, "x", 6, 7⟩]
        [⟨.function .sin, "\\sin", 0, 4⟩, ⟨.number, "2", 6, 7⟩, ⟨.symbol, "x", 7, 8⟩] 7 8) Eq
      (ofTokens [] [⟨.function .sin, "\\sin", 0, 4⟩, ⟨.number, "2", 5, 6⟩, ⟨.symbol, "x", 6, 7⟩] 7)
      (ofTokens [] [⟨.function .sin, "\\sin", 0, 4⟩, ⟨.number, "2", 6, 7⟩, ⟨.symbol, "x", 7, 8⟩]
        8) :=
  ofTokens_up_to_spacing [] 7 8 rfl (.inr ⟨by decide, by decide, rfl⟩)

end AnswerKey

import AnswerKey.Formula.Calls
import AnswerKey.Proofs.Grammar.Passage
import AnswerKey.Proofs.Grammar.Twins

/-! What the outcome of a call rests on: calls with less to read, and calls of the few
functions that it may make before it has taken anything. Answers that agree on these
agree on the call. -/
namespace AnswerKey

namespace Cursor

variable {c c' : Cursor} {k : Token.Kind} {digit : String}

theorem size_next_lt (here : c.kind = some k) : c.next.size < c.size := by
  obtain ⟨t, rest, ht, -⟩ := kind_eq_some.1 here
  simp only [size, next, ht, List.foldr_cons]
  split <;> omega

theorem size_next_le (c : Cursor) : c.next.size ≤ c.size := by
  cases hk : c.kind with
  | none =>
    have : c.tokens = [] := by simpa [kind, kindAt] using hk
    simp [next, this]
  | some k => exact Nat.le_of_lt (size_next_lt hk)

theorem size_skip_le (n : Nat) (c : Cursor) : (c.skip n).size ≤ c.size := by
  induction n generalizing c with
  | zero => exact Nat.le_refl _
  | succ n ih => exact Nat.le_trans (ih c.next) (size_next_le c)

theorem size_lt_of_takeDigit (taken : c.takeDigit? = some (digit, c')) : c'.size < c.size := by
  cases takeDigit_eq_some.1 taken with
  | last here number => exact size_next_lt (kind_eq_some.2 ⟨_, _, here, number⟩)
  | more here number text =>
    have hlength := congrArg List.length text
    simp only [String.length_toList, List.length_cons] at hlength
    simp [size, here, number, hlength]

theorem Passes.size_le (h : Passes c c') : c'.size ≤ c.size := by
  induction h with
  | refl => exact Nat.le_refl _
  | step here _ _ ih => exact Nat.le_trans ih (Nat.le_of_lt (size_next_lt here))
  | digit taken _ ih => exact Nat.le_trans ih (Nat.le_of_lt (size_lt_of_takeDigit taken))
  | @braced c middle _ opened _ _ _ inside rest =>
    have hopened := size_next_le c
    have hclosed := size_next_le middle
    omega

end Cursor

namespace Grammar

open Cursor (size_next_lt size_next_le size_lt_of_takeDigit size_skip_le)

theorem size_of_symbolName {c c' : Cursor} {name : String} (h : symbolName c = .ok (name, c')) :
    c'.size < c.size := by
  cases symbolName_eq_ok.1 h with
  | plain here _ => exact size_next_lt here
  | subscripted here _ below =>
    have hbelow := (passes_of_subscript (subscript_eq_ok.2 below)).size_le
    have hmark := size_next_le c.next
    have hhere := size_next_lt here
    omega

namespace Rule

/-- What a call has left to read. A group is measured behind its opening bracket. -/
def size : Rule → Cursor → Nat
  | group, c => c.next.size
  | _, c => c.size

def room : Rule → Cursor → Nat
  | factor, c | atom, c | symbolOrCall, c => c.size
  | r, c => r.size c + 1

/-- The functions that a function may call before it has taken anything. -/
def callees : Rule → List Rule
  | member | bracketed | arguments | bars | angle => [sum]
  | sum => [signedTerm, sumTail]
  | signedTerm => [term]
  | term | termTail | signedFactor => [factor]
  | factor => [atom]
  | atom => [symbolOrCall]
  | group => [bracketed]
  | functionArguments => [operand, signedTerm]
  | application => [logBase, functionExponent, functionArguments]
  | root | fraction | binomial | integralLimit => [operand]
  | aggregate => [aggregateBound, signedTerm]
  | integralBody => [signedTerm]
  | integral => [integralBound, integralBody]
  | _ => []

theorem size_le (r : Rule) (c : Cursor) : r.size c ≤ c.size := by
  unfold size
  split
  · exact size_next_le c
  · exact Nat.le_refl _

theorem room_le (r : Rule) (c : Cursor) : r.room c ≤ c.size + 1 := by
  unfold room
  split
  any_goals exact Nat.le_succ _
  exact Nat.succ_le_succ (size_le _ c)

end Rule

/-- Calls within a size: with less to read than that, or of functions that are listed. -/
def Within (n : Nat) (callees : List Rule) (r : Rule) (c : Cursor) : Prop :=
  c.size ≤ n ∧ (r.size c < n ∨ r ∈ callees)

inductive Refused : Failure → Failure → Prop
  | same (e : SyntaxError) : Refused (.refused e) (.refused e)

/-- Both attempts end alike: in a syntax error, or with a cursor below a size. -/
abbrev Settled {α : Type} (n : Nat) (a b : Attempt (α × Cursor)) : Prop :=
  Both Refused (fun r s => s = r ∧ r.2.size < n) a b

namespace Settled

variable {α β γ : Type} {n m : Nat} {c : Cursor} {a b : Attempt (α × Cursor)}

theorem result (x : α) (h : c.size < n) :
    Settled n (.ok (x, c) : Attempt (α × Cursor)) (.ok (x, c)) := .ok ⟨rfl, h⟩

theorem refuse (c : Cursor) (e : Expected) :
    Settled n (Grammar.refuse c e : Attempt (α × Cursor)) (Grammar.refuse c e) := .error (.same _)

theorem bind {f f' : α × Cursor → Attempt (β × Cursor)} (h : Settled n a b)
    (hf : ∀ x c, c.size < n → Settled m (f (x, c)) (f' (x, c))) :
    Settled m (a >>= f) (b >>= f') := by
  refine Both.bind h ?_
  rintro ⟨x, c⟩ _ ⟨rfl, hc⟩
  exact hf x c hc

theorem lift {a : Except SyntaxError γ} {f f' : γ → Attempt (β × Cursor)}
    (hf : ∀ x, a = .ok x → Settled m (f x) (f' x)) :
    Settled m (liftM a >>= f) (liftM a >>= f') := by
  cases a with
  | error e => exact .error (.same e)
  | ok x => exact hf x rfl

theorem expect {k : Token.Kind} {e : Expected} {f f' : Cursor → Attempt (β × Cursor)}
    (hf : c.kind = some k → Settled m (f c.next) (f' c.next)) :
    Settled m (liftM (c.expect k e) >>= f) (liftM (c.expect k e) >>= f') := by
  refine lift fun d hd => ?_
  obtain ⟨here, rfl⟩ := Cursor.expect_eq_ok.1 hd
  exact hf here

theorem mono (h : Settled n a b) (hn : n ≤ m) : Settled m a b := by
  cases h with
  | error h => exact .error h
  | ok h => exact .ok ⟨h.1, Nat.lt_of_lt_of_le h.2 hn⟩

theorem eq (h : Settled n a b) : a = b := by
  cases h with
  | error h =>
    cases h with
    | same => rfl
  | ok h => rw [h.1]

theorem left (h : Settled n a b) : Settled n a a := by
  obtain rfl := h.eq
  exact h

theorem ne_exhausted (h : Settled n a b) : b ≠ .error .exhausted := by
  cases h with
  | error h =>
    cases h with
    | same => exact nofun
  | ok => exact nofun

end Settled

def AgreeOn (n : Nat) (callees : List Rule) (k k' : Answers) : Prop :=
  ∀ (r : Rule) (a : r.Argument) (c : Cursor), Within n callees r c →
    Settled (r.room c) (k r a c) (k' r a c)

namespace AgreeOn

variable {k k' : Answers} {n : Nat} {callees : List Rule} {c : Cursor} {mode : Mode}
  {δ : Delimiter} {f : Builtin} {declared : List String}

theorem smaller (h : AgreeOn n callees k k') (r : Rule) (a : r.Argument) (hc : c.size < n) :
    Settled (c.size + 1) (k r a c) (k' r a c) :=
  (h r a c ⟨Nat.le_of_lt hc, .inl (Nat.lt_of_le_of_lt (r.size_le c) hc)⟩).mono (r.room_le c)

theorem same (h : AgreeOn n callees k k') (r : Rule) (a : r.Argument) (hc : c.size ≤ n)
    (hr : r ∈ callees) : Settled (c.size + 1) (k r a c) (k' r a c) :=
  (h r a c ⟨hc, .inr hr⟩).mono (r.room_le c)

/-! Brackets, operands, roots, bars and applications. -/

theorem ofBracketed (h : AgreeOn c.size (Rule.callees .bracketed) k k') :
    Settled (c.size + 1) (bracketed (k.rules declared) δ c) (bracketed (k'.rules declared) δ c) :=
  .bind (h.same .sum .plain (Nat.le_refl _) (by decide)) fun x last hl => .expect fun _ => by
    have hnext := size_next_le last
    exact .result x (by omega)

theorem ofGroup (h : AgreeOn c.next.size (Rule.callees .group) k k') :
    Settled (c.next.size + 1) (k.group δ c) (k'.group δ c) :=
  .bind (h.same .bracketed δ (Nat.le_refl _) (by decide)) fun x after ha => .result _ ha

theorem ofSymbolOrCall (h : AgreeOn c.size (Rule.callees .symbolOrCall) k k') :
    Settled c.size (symbolOrCall (k.rules declared) c) (symbolOrCall (k'.rules declared) c) := by
  refine .lift fun ⟨name, after⟩ named => ?_
  have hname := size_of_symbolName named
  dsimp only
  rw [Answers.declared_rules, Answers.declared_rules]
  split
  · have hnext := size_next_le after
    exact .bind (h.smaller .arguments .round (c := after.next) (by omega)) fun args last hl =>
      .result _ (c := last) (by omega)
  · exact .result _ hname

theorem ofOperand {allowSymbol : Bool} (h : AgreeOn c.size (Rule.callees .operand) k k') :
    Settled (c.size + 1) (k.operand allowSymbol c) (k'.operand allowSymbol c) := by
  have hnext := size_next_le c
  unfold Answers.operand
  split
  · next here =>
    have hopened := size_next_lt here
    exact (h.smaller .bracketed .curly hopened).mono (by omega)
  · split
    · next digit after taken =>
      have hdigit := size_lt_of_takeDigit taken
      exact .result _ (by omega)
    · exact .refuse c _
  · split
    · exact .result _ (by omega)
    · exact .refuse c _
  · split
    · exact .result _ (by omega)
    · exact .refuse c _
  · exact .refuse c _

theorem ofLogBase (h : AgreeOn c.size (Rule.callees .logBase) k k') :
    Settled (c.size + 1) (k.logBase f c) (k'.logBase f c) := by
  unfold Answers.logBase
  split
  · next written =>
    have here : c.kind = some .underscore := by simp_all
    have hmark := size_next_lt here
    exact .bind (h.smaller .operand true hmark) fun base after ha => .result _ (by omega)
  · exact .result _ (Nat.lt_succ_self _)

theorem ofFunctionExponent (h : AgreeOn c.size (Rule.callees .functionExponent) k k') :
    Settled (c.size + 1) (functionExponent (k.rules declared) f c)
      (functionExponent (k'.rules declared) f c) := by
  unfold functionExponent
  split
  · next here =>
    have hmark := size_next_lt here
    refine .bind (h.smaller .exponent () hmark) fun e after ha => ?_
    dsimp only
    split
    · split
      · split
        · exact .result _ (by omega)
        · exact .result _ (by omega)
      · exact .result _ (by omega)
    · exact .refuse after _
  · exact .result _ (Nat.lt_succ_self _)

theorem ofFunctionArguments (h : AgreeOn c.size (Rule.callees .functionArguments) k k') :
    Settled (c.size + 1) (k.functionArguments f mode c) (k'.functionArguments f mode c) := by
  have opened {t : Token.Kind} (δ : Delimiter) (here : c.kind = some t) :
      Settled (c.size + 1) (k .arguments δ c.next) (k' .arguments δ c.next) :=
    (h.smaller .arguments δ (size_next_lt here)).mono (Nat.succ_le_succ (size_next_le c))
  unfold Answers.functionArguments
  split
  · exact .bind (h.same .operand true (Nat.le_refl _) (by decide)) fun bra middle hm =>
      .bind (h.same .operand true (c := middle) (by omega) (by decide)) fun ket after ha =>
        .result _ (by omega)
  · dsimp only
    split
    · next here => exact .bind (opened .round here) fun args after ha => .result _ ha
    · next here => exact .bind (opened .square here) fun args after ha => .result _ ha
    · next here => exact .bind (opened .curly here) fun args after ha => .result _ ha
    · split
      · exact .bind (h.same .signedTerm _ (Nat.le_refl _) (by decide)) fun x after ha =>
          .result _ ha
      · exact .refuse c _

theorem ofApplication (h : AgreeOn c.size (Rule.callees .application) k k') :
    Settled (c.size + 1) (k.application f mode c) (k'.application f mode c) := by
  refine .bind (h.same .logBase f (Nat.le_refl _) (by decide)) fun base c₁ h₁ => ?_
  refine .bind (h.same .functionExponent f (c := c₁) (by omega) (by decide))
    fun ⟨f', power⟩ c₂ h₂ => ?_
  refine .bind (h.same .functionArguments (f', mode) (c := c₂) (by omega) (by decide))
    fun ⟨args, delimited⟩ c₃ h₃ => ?_
  cases power with
  | some x => exact .result _ (by omega)
  | none => exact .result _ (by omega)

theorem ofRoot (h : AgreeOn c.size (Rule.callees .root) k k') :
    Settled (c.size + 1) (k.root c) (k'.root c) := by
  unfold Answers.root
  split
  · next here =>
    have hopened := size_next_lt here
    exact .bind (h.smaller .bracketed .square hopened) fun index middle hm =>
      .bind (h.smaller .operand true (c := middle) (by omega)) fun x after ha =>
        .result _ (by omega)
  · exact .bind (h.same .operand true (Nat.le_refl _) (by decide)) fun x after ha => .result _ ha

theorem ofOperands (build : Formula → Formula → Formula) (h : AgreeOn c.size [.operand] k k') :
    Settled (c.size + 1) (k.operands build c) (k'.operands build c) :=
  .bind (h.same .operand false (Nat.le_refl _) (by decide)) fun top middle hm =>
    .bind (h.same .operand true (c := middle) (by omega) (by decide)) fun bottom after ha =>
      .result _ (by omega)

theorem ofBars (h : AgreeOn c.size (Rule.callees .bars) k k') :
    Settled (c.size + 1) (bars (k.rules declared) c) (bars (k'.rules declared) c) := by
  refine .bind (h.same .sum .bars (Nat.le_refl _) (by decide)) fun x last hl => ?_
  have hnext := size_next_le last
  dsimp only
  split
  · exact .result _ (by omega)
  · exact .result _ (by omega)
  · exact .refuse last _

theorem ofAngle (h : AgreeOn c.size (Rule.callees .angle) k k') :
    Settled (c.size + 1) (angle (k.rules declared) c) (angle (k'.rules declared) c) := by
  refine .bind (h.same .sum .bars (Nat.le_refl _) (by decide)) fun bra middle hm =>
    .expect fun _ => ?_
  have hbar := size_next_le middle
  dsimp only
  split
  · refine .bind (h.same .sum .bars (c := middle.next) (by omega) (by decide)) fun ket last hl =>
      .expect fun _ => ?_
    have hclosed := size_next_le last
    dsimp only
    exact .result _ (by omega)
  · exact .result _ (by omega)

/-! Sums, products, integrals and limits. -/

theorem ofDifferential (isPartial : Bool) :
    Settled (c.size + 1) (differential isPartial c) (differential isPartial c) := by
  unfold differential
  split
  · exact .lift fun ⟨name, after⟩ named => .result _ (Nat.lt_succ_of_lt (size_of_symbolName named))
  · exact .result _ (Nat.lt_succ_self _)

theorem ofSide (c : Cursor) : Settled (c.size + 1) (side c) (side c) := by
  have h₁ := size_next_le c
  have h₂ := size_next_le c.next
  have h₃ := size_next_le c.next.next
  have h₄ := size_next_le c.next.next.next
  unfold side
  dsimp only
  split
  · split
    · split
      · exact .expect fun _ => .result _ (by omega)
      · exact .refuse _ _
    · split
      · exact .result _ (by omega)
      · exact .result _ (by omega)
  · split
    · split
      · exact .result _ (by omega)
      · exact .result _ (Nat.lt_succ_self _)
    · exact .result _ (Nat.lt_succ_self _)

theorem ofIndexBinding (h : AgreeOn c.size (Rule.callees .indexBinding) k k') :
    Settled (c.size + 1) (k.indexBinding c) (k'.indexBinding c) := by
  refine .expect fun opened => .lift fun ⟨name, c₁⟩ named => .expect fun _ => ?_
  have hopened := size_next_lt opened
  have hname := size_of_symbolName named
  have hequal := size_next_le c₁
  exact .bind (h.smaller .bracketed .curly (c := c₁.next) (by omega)) fun lower after ha =>
    .result _ (by omega)

theorem ofAggregateBound {bounds : Option (String × Formula) × Option Formula}
    (h : AgreeOn c.size (Rule.callees .aggregateBound) k k') :
    Settled (c.size + 1) (k.aggregateBound bounds c) (k'.aggregateBound bounds c) := by
  unfold Answers.aggregateBound
  split
  · next here =>
    have hmark := size_next_lt here
    exact .bind (h.smaller .indexBinding () hmark) fun lower after ha => .result _ (by omega)
  · next here =>
    have hmark := size_next_lt here
    exact .bind (h.smaller .operand true hmark) fun upper after ha => .result _ (by omega)
  · exact .result _ (Nat.lt_succ_self _)

theorem ofAggregate {kind : Aggregate} (h : AgreeOn c.size (Rule.callees .aggregate) k k') :
    Settled (c.size + 1) (k.aggregate kind mode c) (k'.aggregate kind mode c) := by
  refine .bind (h.same .aggregateBound _ (Nat.le_refl _) (by decide)) fun bounds c₁ h₁ => ?_
  refine .bind (h.same .aggregateBound bounds (c := c₁) (by omega) (by decide))
    fun ⟨lower, upper⟩ c₂ h₂ => ?_
  match lower, upper with
  | none, _ => exact .refuse c₂ _
  | some _, none => exact .refuse c₂ _
  | some (name, lower), some upper =>
    exact .bind (h.same .signedTerm _ (c := c₂) (by omega) (by decide)) fun body after ha =>
      .result _ (by omega)

theorem ofIntegralLimit (h : AgreeOn c.size (Rule.callees .integralLimit) k k') :
    Settled (c.size + 1) (k.integralLimit c) (k'.integralLimit c) := by
  unfold Answers.integralLimit
  split
  · next here =>
    have hsign := size_next_lt here
    exact .bind (h.smaller .operand true hsign) fun x after ha => .result _ (by omega)
  · exact h.same .operand true (Nat.le_refl _) (by decide)

theorem ofIntegralBound {bounds : Option Formula × Option Formula}
    (h : AgreeOn c.size (Rule.callees .integralBound) k k') :
    Settled (c.size + 1) (k.integralBound bounds c) (k'.integralBound bounds c) := by
  unfold Answers.integralBound
  split
  · next here =>
    have hmark := size_next_lt here
    exact .bind (h.smaller .integralLimit () hmark) fun lower after ha => .result _ (by omega)
  · next here =>
    have hmark := size_next_lt here
    exact .bind (h.smaller .integralLimit () hmark) fun upper after ha => .result _ (by omega)
  · exact .result _ (Nat.lt_succ_self _)

theorem ofIntegralBody (h : AgreeOn c.size (Rule.callees .integralBody) k k') :
    Settled (c.size + 1) (Grammar.integralBody (k.rules declared) mode c)
      (Grammar.integralBody (k'.rules declared) mode c) := by
  have hnext := size_next_le c
  have differentialFirst (isPartial : Bool) :
      Settled (c.size + 1)
        (differential isPartial c.next >>= fun r =>
          if startsFactor mode r.2 then
            k .signedTerm mode r.2 >>= fun s => pure (.juxtaposed .differential r.1 s.1, s.2)
          else
            pure (r.1, r.2))
        (differential isPartial c.next >>= fun r =>
          if startsFactor mode r.2 then
            k' .signedTerm mode r.2 >>= fun s => pure (.juxtaposed .differential r.1 s.1, s.2)
          else
            pure (r.1, r.2)) := by
    refine .bind (ofDifferential isPartial) fun d middle hm => ?_
    dsimp only
    split
    · exact .bind (h.same .signedTerm mode (c := middle) (by omega) (by decide))
        fun x after ha => .result _ (c := after) (by omega)
    · exact .result _ (by omega)
  unfold Grammar.integralBody
  dsimp only
  split
  · exact differentialFirst false
  · exact differentialFirst true
  · exact h.same .signedTerm mode (Nat.le_refl _) (by decide)

theorem ofIntegral (h : AgreeOn c.size (Rule.callees .integral) k k') :
    Settled (c.size + 1) (k.integral mode c) (k'.integral mode c) := by
  refine .bind (h.same .integralBound _ (Nat.le_refl _) (by decide)) fun bounds c₁ h₁ => ?_
  refine .bind (h.same .integralBound bounds (c := c₁) (by omega) (by decide))
    fun ⟨lower, upper⟩ c₂ h₂ => ?_
  exact .bind (h.same .integralBody _ (c := c₂) (by omega) (by decide)) fun body after ha =>
    .result _ (by omega)

theorem ofLimit (h : AgreeOn c.size (Rule.callees .limit) k k') :
    Settled (c.size + 1) (Grammar.limit (k.rules declared) mode c)
      (Grammar.limit (k'.rules declared) mode c) := by
  refine .expect fun mark => .expect fun _ => .lift fun ⟨name, c₁⟩ named => .expect fun _ => ?_
  have hmark := size_next_lt mark
  have hopened := size_next_le c.next
  have hname := size_of_symbolName named
  have harrow := size_next_le c₁
  refine .bind (h.smaller .sum { limitTarget := true } (c := c₁.next) (by omega))
    fun approach c₂ h₂ => ?_
  refine .bind (ofSide c₂) fun side c₃ h₃ => .expect fun _ => ?_
  have hclosed := size_next_le c₃
  exact .bind (h.smaller .signedTerm _ (c := c₃.next) (by omega)) fun body after ha =>
    .result _ (by omega)

/-! Atoms, factors, terms and sums. -/

theorem ofAtom (h : AgreeOn c.size (Rule.callees .atom) k k') :
    Settled c.size (k.atom mode c) (k'.atom mode c) := by
  have behind {t : Token.Kind} (here : c.kind = some t) (r : Rule) (a : r.Argument) :
      Settled c.size (k r a c.next) (k' r a c.next) :=
    (h.smaller r a (size_next_lt here)).mono (size_next_lt here)
  have differential {t : Token.Kind} (here : c.kind = some t) (isPartial : Bool) :
      Settled c.size (Grammar.differential isPartial c.next)
        (Grammar.differential isPartial c.next) :=
    (ofDifferential isPartial).mono (size_next_lt here)
  unfold Answers.atom
  split
  · next here => exact .result _ (size_next_lt here)
  · exact h .symbolOrCall () c ⟨Nat.le_refl _, .inr (by decide)⟩
  · next here => exact .result _ (size_next_lt here)
  · next here => exact .bind (behind here .bracketed .floor) fun x after ha => .result _ ha
  · next here => exact .bind (behind here .bracketed .ceil) fun x after ha => .result _ ha
  · next here => exact behind here .angle ()
  · next δ _ _ _ here =>
    exact (h .group δ c ⟨Nat.le_refl _, .inl (size_next_lt here)⟩).mono (size_next_lt here)
  · next here =>
    split
    · exact .refuse c _
    · exact behind here .bars ()
  · next here => exact behind here .application _
  · next here => exact behind here .root ()
  · next here => exact behind here .fraction ()
  · next here => exact behind here .binomial ()
  · next here => exact behind here .aggregate _
  · next here => exact behind here .aggregate _
  · next here => exact behind here .integral mode
  · next here => exact behind here .limit mode
  · next here => exact differential here false
  · next here => exact differential here true
  · exact .refuse c _

theorem ofFactor (h : AgreeOn c.size (Rule.callees .factor) k k') :
    Settled c.size (k.factor mode c) (k'.factor mode c) := by
  have atom : Settled c.size (k .atom mode c) (k' .atom mode c) :=
    h .atom mode c ⟨Nat.le_refl _, .inr (by decide)⟩
  exact .bind atom fun base after ha => (h.smaller .factorTail (mode, base) ha).mono ha

theorem ofFactorTail {base : Formula} (h : AgreeOn c.size (Rule.callees .factorTail) k k') :
    Settled (c.size + 1) (Grammar.factorTail (k.rules declared) mode base c)
      (Grammar.factorTail (k'.rules declared) mode base c) := by
  have further {t : Token.Kind} (here : c.kind = some t) (base : Formula) :
      Settled (c.size + 1) (k .factorTail (mode, base) c.next) (k' .factorTail (mode, base) c.next) :=
    (h.smaller .factorTail (mode, base) (size_next_lt here)).mono
      (Nat.succ_le_succ (size_next_le c))
  unfold Grammar.factorTail
  split
  · next here =>
    have hmark := size_next_lt here
    split
    · exact .result _ (Nat.lt_succ_self _)
    · refine .bind (h.smaller .exponent () hmark) fun e after ha => ?_
      have behind (base : Formula) :
          Settled (c.size + 1) (k .factorTail (mode, base) after) (k' .factorTail (mode, base) after) :=
        (h.smaller .factorTail (mode, base) (by omega)).mono (by omega)
      cases e with
      | value x => exact behind (.power base x)
      | dagger => exact behind (.dagger base)
      | prime => exact behind (.primed base)
  · next here => exact further here (.factorial base)
  · next here => exact further here (.primed base)
  · exact .result _ (Nat.lt_succ_self _)

theorem ofExponent (h : AgreeOn c.size (Rule.callees .exponent) k k') :
    Settled (c.size + 1) (k.exponent c) (k'.exponent c) := by
  have hnext := size_next_le c
  have behind {t : Token.Kind} (here : c.kind = some t) (r : Rule) (a : r.Argument) :
      Settled (c.size + 1) (k r a c.next) (k' r a c.next) :=
    (h.smaller r a (size_next_lt here)).mono (Nat.succ_le_succ hnext)
  unfold Answers.exponent
  dsimp only
  split
  · next here =>
    split
    · have hmarker := size_skip_le 3 c
      exact .result _ (by omega)
    · exact .bind (behind here .bracketed .curly) fun x after ha => .result _ ha
  · exact .result _ (by omega)
  · exact .result _ (by omega)
  · exact .result _ (by omega)
  · next here =>
    refine .bind (behind here .exponent ()) fun e after ha => ?_
    cases e with
    | value x => exact .result _ ha
    | dagger => exact .refuse after _
    | prime => exact .refuse after _
  · split
    · next digit after taken =>
      have hdigit := size_lt_of_takeDigit taken
      exact .result _ (by omega)
    · exact .refuse c _
  · exact .result _ (by omega)
  · exact .result _ (by omega)
  · next here =>
    have group := h .group .round c ⟨Nat.le_refl _, .inl (size_next_lt here)⟩
    exact .bind (group.mono (Nat.succ_le_succ hnext)) fun x after ha => .result _ ha
  · next here => exact .bind (behind here .fraction ()) fun x after ha => .result _ ha
  · next here => exact .bind (behind here .binomial ()) fun x after ha => .result _ ha
  · next here => exact .bind (behind here .root ()) fun x after ha => .result _ ha
  · exact .refuse c _

theorem ofSignedFactor (h : AgreeOn c.size (Rule.callees .signedFactor) k k') :
    Settled (c.size + 1) (k.signedFactor mode c) (k'.signedFactor mode c) := by
  unfold Answers.signedFactor
  split
  · next here =>
    have hsign := size_next_lt here
    exact .bind (h.smaller .signedFactor mode hsign) fun x after ha => .result _ (by omega)
  · next here =>
    have hsign := size_next_lt here
    exact (h.smaller .signedFactor mode hsign).mono (by omega)
  · exact h.same .factor mode (Nat.le_refl _) (by decide)

theorem ofTerm (h : AgreeOn c.size (Rule.callees .term) k k') :
    Settled (c.size + 1) (k.term mode c) (k'.term mode c) := by
  have factor : Settled c.size (k .factor mode c) (k' .factor mode c) :=
    h .factor mode c ⟨Nat.le_refl _, .inr (by decide)⟩
  exact .bind factor fun left after ha =>
    (h.smaller .termTail (mode, left) ha).mono (by omega)

theorem ofTermTail {left : Formula} (h : AgreeOn c.size (Rule.callees .termTail) k k') :
    Settled (c.size + 1) (k.termTail declared mode left c) (k'.termTail declared mode left c) := by
  have behind (left : Formula) (after : Cursor) (ha : after.size < c.size) :
      Settled (c.size + 1) (k .termTail (mode, left) after) (k' .termTail (mode, left) after) :=
    (h.smaller .termTail (mode, left) ha).mono (by omega)
  have explicit {t : Token.Kind} (op : Operation) (here : c.kind = some t) :
      Settled (c.size + 1)
        (k .signedFactor mode c.next >>= fun r => k .termTail (mode, .binary op left r.1) r.2)
        (k' .signedFactor mode c.next >>= fun r => k' .termTail (mode, .binary op left r.1) r.2) := by
    have hsign := size_next_lt here
    exact .bind (h.smaller .signedFactor mode hsign) fun right after ha => behind _ after (by omega)
  unfold Answers.termTail
  dsimp only
  split
  · exact .result _ (Nat.lt_succ_self _)
  · split
    · next here =>
      split
      · exact .result _ (Nat.lt_succ_self _)
      · exact explicit .mul here
    · next here =>
      split
      · exact .result _ (Nat.lt_succ_self _)
      · exact explicit .div here
    · split
      · have factor : Settled c.size (k .factor mode c) (k' .factor mode c) :=
          h .factor mode c ⟨Nat.le_refl _, .inr (by decide)⟩
        exact .bind factor fun right after ha => behind _ after ha
      · exact .result _ (Nat.lt_succ_self _)

theorem ofSignedTerm (h : AgreeOn c.size (Rule.callees .signedTerm) k k') :
    Settled (c.size + 1) (k.signedTerm mode c) (k'.signedTerm mode c) := by
  unfold Answers.signedTerm
  split
  · next here =>
    have hsign := size_next_lt here
    exact .bind (h.smaller .signedTerm mode hsign) fun x after ha => .result _ (by omega)
  · next here =>
    have hsign := size_next_lt here
    exact (h.smaller .signedTerm mode hsign).mono (by omega)
  · exact h.same .term mode (Nat.le_refl _) (by decide)

theorem ofSum (h : AgreeOn c.size (Rule.callees .sum) k k') :
    Settled (c.size + 1) (Grammar.sum (k.rules declared) mode c)
      (Grammar.sum (k'.rules declared) mode c) :=
  .bind (h.same .signedTerm mode (Nat.le_refl _) (by decide)) fun left after ha =>
    (h.same .sumTail (mode, left) (Nat.le_of_lt_succ ha) (by decide)).mono ha

theorem ofSumTail {left : Formula} (h : AgreeOn c.size (Rule.callees .sumTail) k k') :
    Settled (c.size + 1) (Grammar.sumTail (k.rules declared) mode left c)
      (Grammar.sumTail (k'.rules declared) mode left c) := by
  have more {t : Token.Kind} (op : Operation) (here : c.kind = some t) :
      Settled (c.size + 1)
        (k .signedTerm mode c.next >>= fun r => k .sumTail (mode, .binary op left r.1) r.2)
        (k' .signedTerm mode c.next >>= fun r => k' .sumTail (mode, .binary op left r.1) r.2) := by
    have hsign := size_next_lt here
    exact .bind (h.smaller .signedTerm mode hsign) fun right after ha =>
      (h.smaller .sumTail _ (c := after) (by omega)).mono (by omega)
  unfold Grammar.sumTail
  dsimp only
  split
  · next here =>
    split
    · exact .result _ (Nat.lt_succ_self _)
    · exact more .add here
  · next here =>
    split
    · exact .result _ (Nat.lt_succ_self _)
    · exact more .sub here
  · exact .result _ (Nat.lt_succ_self _)

theorem ofArguments (h : AgreeOn c.size (Rule.callees .arguments) k k') :
    Settled (c.size + 1) (Grammar.arguments (k.rules declared) δ c)
      (Grammar.arguments (k'.rules declared) δ c) := by
  refine .bind (h.same .sum .plain (Nat.le_refl _) (by decide)) fun x middle hm => ?_
  have hnext := size_next_le middle
  dsimp only
  split
  · next comma =>
    have hcomma := size_next_lt comma
    exact .bind (h.smaller .arguments δ (c := middle.next) (by omega)) fun rest after ha =>
      .result _ (c := after) (by omega)
  · split
    · exact .result _ (by omega)
    · exact .refuse middle _

theorem ofMember (h : AgreeOn c.size (Rule.callees .member) k k') :
    Settled (c.size + 1) (member (k.rules declared) c) (member (k'.rules declared) c) := by
  refine .bind (h.same .sum .plain (Nat.le_refl _) (by decide)) fun left middle hm => ?_
  have hnext := size_next_le middle
  dsimp only
  split
  · refine .bind (h.same .sum .plain (c := middle.next) (by omega) (by decide))
      fun right after ha => ?_
    dsimp only
    split
    · exact .refuse after _
    · exact .result _ (by omega)
  · exact .result _ hm

end AgreeOn

/-- Answers that agree on the calls within a call lead to the same outcome, which is a
syntax error or leaves its cursor where it must. -/
theorem settled_step (declared : List String) {k k' : Answers} (r : Rule) (a : r.Argument)
    (c : Cursor) (h : AgreeOn (r.size c) r.callees k k') :
    Settled (r.room c) (k.step declared r a c) (k'.step declared r a c) := by
  cases r with
  | member => exact h.ofMember
  | sum => exact h.ofSum
  | sumTail => exact h.ofSumTail
  | signedTerm => exact h.ofSignedTerm
  | term => exact h.ofTerm
  | termTail => exact h.ofTermTail
  | signedFactor => exact h.ofSignedFactor
  | factor => exact h.ofFactor
  | factorTail => exact h.ofFactorTail
  | exponent => exact h.ofExponent
  | atom => exact h.ofAtom
  | bracketed => exact h.ofBracketed
  | group => exact h.ofGroup
  | symbolOrCall => exact h.ofSymbolOrCall
  | arguments => exact h.ofArguments
  | operand => exact h.ofOperand
  | logBase => exact h.ofLogBase
  | functionExponent => exact h.ofFunctionExponent
  | functionArguments => exact h.ofFunctionArguments
  | application => exact h.ofApplication
  | root => exact h.ofRoot
  | fraction => exact h.ofOperands .fraction
  | binomial => exact h.ofOperands .binomial
  | bars => exact h.ofBars
  | angle => exact h.ofAngle
  | indexBinding => exact h.ofIndexBinding
  | aggregateBound => exact h.ofAggregateBound
  | aggregate => exact h.ofAggregate
  | integralLimit => exact h.ofIntegralLimit
  | integralBound => exact h.ofIntegralBound
  | integralBody => exact h.ofIntegralBody
  | integral => exact h.ofIntegral
  | limit => exact h.ofLimit

end Grammar

end AnswerKey

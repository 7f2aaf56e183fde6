import AnswerKey.Proofs.Expr.OfFormula
import AnswerKey.Proofs.Grammar.Neighbours
import AnswerKey.Token.Lexer

/-! How tightly the parts of a formula are bound: products stand in sums and not
the other way round, operations of one rank group to the left, and each implicit
product has the shape that its factors call for. -/
namespace AnswerKey

namespace Formula

def isFactor : Formula → Bool
  | binary _ _ _ | juxtaposed _ _ _ | negated _ | relation _ _ _ => false
  | _ => true

def isTerm : Formula → Bool
  | binary .mul _ _ | binary .div _ _ | juxtaposed _ _ _ => true
  | f => f.isFactor

def isSum : Formula → Bool
  | binary .add _ _ | binary .sub _ _ => true
  | _ => false

def isRelation : Formula → Bool
  | relation _ _ _ => true
  | _ => false

def unsigned : Formula → Formula
  | negated x => x.unsigned
  | x => x

inductive Place where
  | whole | integrand | part

def placedParts : Formula → List (Place × Formula)
  | integral lower upper body =>
    (lower.toList ++ upper.toList).map (Place.part, ·) ++ [(.integrand, body)]
  | f => f.parts.map (Place.part, ·)

inductive OccursAt (whole : Formula) : Place → Formula → Prop
  | whole : OccursAt whole .whole whole
  | inside {p q : Place} {f g : Formula} (around : OccursAt whole p f)
      (part : (q, g) ∈ f.placedParts) : OccursAt whole q g

/-- What precedence asks of the parts of a formula. A differential in front of an
integrand takes a whole term. -/
def IsRanked (place : Place) : Formula → Prop
  | relation _ _ _ => place = .whole
  | binary .add _ r | binary .sub _ r => r.isSum = false ∧ r.isRelation = false
  | binary .mul l r | binary .div l r => l.isTerm ∧ r.unsigned.isFactor
  | juxtaposed _ l r =>
    l.isTerm ∧ (r.isFactor ∨ place = .integrand ∧ l.isDifferential ∧ r.unsigned.isTerm)
  | power b _ | dagger b | primed b | factorial b => b.isFactor
  | _ => True

/-- What the shape of an implicit product says of the factors that meet in it. -/
structure Meets (left : Formula) (shape : Adjacency) (right : Formula) : Prop where
  left_not_differential : left.lastFactor.isDifferential = false
  differential_iff : shape = .differential ↔ right.stem.isDifferential = true
  suits : shape ≠ .differential → left.lastFactor.Suits shape right.stem

def IsJoined (place : Place) : Formula → Prop
  | juxtaposed shape l r => l.Meets shape r ∨ place = .integrand ∧ l.isDifferential
  | _ => True

inductive Composed : Place → Formula → Prop
  | mk {p : Place} {f : Formula} (ranked : f.IsRanked p) (joined : f.IsJoined p)
      (parts : ∀ q g, (q, g) ∈ f.placedParts → Composed q g) : Composed p f

variable {f g l r x : Formula} {p q : Place}

theorem Composed.of_occursAt (h : f.Composed .whole) (hg : f.OccursAt q g) : g.Composed q := by
  induction hg with
  | whole => exact h
  | inside _ part ih =>
    cases ih with
    | mk _ _ parts => exact parts _ _ part

theorem Composed.isRanked (h : f.Composed p) : f.IsRanked p := by
  cases h with
  | mk ranked => exact ranked

theorem Composed.isJoined (h : f.Composed p) : f.IsJoined p := by
  cases h with
  | mk _ joined => exact joined

theorem place_ne_whole (h : (q, g) ∈ f.placedParts) : q ≠ .whole := by
  rintro rfl
  cases f <;> simp [placedParts] at h

theorem OccursAt.eq_of_whole (h : f.OccursAt .whole g) : g = f := by
  cases h with
  | whole => rfl
  | inside _ part => exact absurd rfl (place_ne_whole part)

theorem composed_of_parts (hplaces : f.placedParts = f.parts.map (Place.part, ·))
    (ranked : f.IsRanked p) (joined : f.IsJoined p) (parts : ∀ g ∈ f.parts, g.Composed .part) :
    f.Composed p := by
  refine .mk ranked joined fun q g hg => ?_
  rw [hplaces, List.mem_map] at hg
  obtain ⟨y, hy, heq⟩ := hg
  obtain ⟨rfl, rfl⟩ := Prod.mk.inj heq
  exact parts y hy

theorem Composed.anywhere (h : f.Composed .part) (p : Place) : f.Composed p := by
  cases h with
  | mk ranked joined parts =>
    refine .mk ?_ ?_ parts
    · cases f with
      | relation => cases ranked
      | juxtaposed shape l r =>
        obtain ⟨hl, hr | ⟨hplace, -⟩⟩ := ranked
        · exact ⟨hl, .inl hr⟩
        · cases hplace
      | binary op => cases op <;> exact ranked
      | _ => exact ranked
    · cases f with
      | juxtaposed shape l r =>
        obtain hm | ⟨hplace, -⟩ := joined
        · exact .inl hm
        · cases hplace
      | _ => trivial

theorem isTerm_of_isFactor (h : f.isFactor = true) : f.isTerm = true := by
  cases f <;> simp_all [isTerm, isFactor]

theorem unsigned_of_isTerm (h : f.isTerm = true) : f.unsigned = f := by
  cases f <;> simp_all [unsigned, isTerm, isFactor]

theorem not_sum_of_unsigned (h : f.unsigned.isTerm = true) :
    f.isSum = false ∧ f.isRelation = false := by
  cases f with
  | binary op _ _ => cases op <;> simp_all [unsigned, isTerm, isFactor, isSum, isRelation]
  | _ => simp_all [unsigned, isTerm, isFactor, isSum, isRelation]

end Formula

theorem Token.Kind.atom_of_begins {k : Token.Kind} {x : Formula} (h : k.begins x = true) :
    x.isFactor = true ∧ x.stem = x := by
  cases k with
  | opening d =>
    cases d <;> cases x <;> simp_all [begins, Formula.isApplication, Formula.isFactor, Formula.stem]
  | _ => cases x <;> simp_all [begins, Formula.isApplication, Formula.isFactor, Formula.stem]

namespace Grammar

open Formula (Composed composed_of_parts isTerm_of_isFactor unsigned_of_isTerm not_sum_of_unsigned)

def Exponent.Composed : Exponent → Prop
  | .value x => x.Composed .part
  | .dagger | .prime => True

/-- What the readings of all rules ensure of the formulas that they build. -/
structure Rules.Composes (g : Rules) : Prop where
  sum {mode : Mode} {c c' : Cursor} {x : Formula} (h : g.sum mode c = .ok (x, c')) :
    x.Composed .part
  sumTail {mode : Mode} {left x : Formula} {c c' : Cursor}
    (h : g.sumTail mode left c = .ok (x, c')) (hl : left.Composed .part) : x.Composed .part
  signedTerm {mode : Mode} {c c' : Cursor} {x : Formula}
    (h : g.signedTerm mode c = .ok (x, c')) : x.Composed .part ∧ x.unsigned.isTerm = true
  termTail {mode : Mode} {left x : Formula} {c c' : Cursor}
    (h : g.termTail mode left c = .ok (x, c')) (hl : left.Composed .part)
    (hterm : left.isTerm = true) : x.Composed .part ∧ x.isTerm = true
  signedFactor {mode : Mode} {c c' : Cursor} {x : Formula}
    (h : g.signedFactor mode c = .ok (x, c')) : x.Composed .part ∧ x.unsigned.isFactor = true
  factorTail {mode : Mode} {base x : Formula} {c c' : Cursor}
    (h : g.factorTail mode base c = .ok (x, c')) (hb : base.Composed .part)
    (hfactor : base.isFactor = true) :
    x.Composed .part ∧ x.isFactor = true ∧ x.stem = base.stem
  exponent {c c' : Cursor} {e : Exponent} (h : g.exponent c = .ok (e, c')) : e.Composed
  arguments {d : Delimiter} {c c' : Cursor} {xs : List Formula}
    (h : g.arguments d c = .ok (xs, c')) : ∀ x ∈ xs, x.Composed .part

theorem composes_exhausted (declared : List String) : (Rules.exhausted declared).Composes where
  sum h := nomatch h
  sumTail h := nomatch h
  signedTerm h := nomatch h
  termTail h := nomatch h
  signedFactor h := nomatch h
  factorTail h := nomatch h
  exponent h := nomatch h
  arguments h := nomatch h

theorem composed_leaf {x : Formula} (hplaces : x.placedParts = []) (hparts : x.parts = [])
    (ranked : x.IsRanked .part) (joined : x.IsJoined .part) : x.Composed .part := by
  refine composed_of_parts (by rw [hplaces, hparts]; rfl) ranked joined ?_
  rw [hparts]
  exact List.forall_mem_nil _

namespace Rules.Composes

variable {g : Rules} {mode : Mode} {c c' : Cursor} {x : Formula} {d : Delimiter} {f : Builtin}

theorem ofBracketed (hg : g.Composes) (h : bracketed g d c = .ok (x, c')) : x.Composed .part := by
  obtain ⟨last, hs, -, -⟩ := bracketed_eq_ok.1 h
  exact hg.sum hs

theorem ofGroup (hg : g.Composes) (h : group g d c = .ok (x, c')) : x.Composed .part := by
  obtain ⟨inner, hi, rfl⟩ := group_eq_ok.1 h
  exact composed_of_parts rfl trivial trivial (List.forall_mem_singleton.2 (hg.ofBracketed hi))

theorem ofSymbolOrCall (hg : g.Composes) (h : symbolOrCall g c = .ok (x, c')) :
    x.Composed .part := by
  cases symbolOrCall_eq_ok.1 h with
  | call _ _ _ inside => exact composed_of_parts rfl trivial trivial (hg.arguments inside)
  | symbol => exact composed_leaf rfl rfl trivial trivial

theorem ofOperand (hg : g.Composes) {allowSymbol : Bool}
    (h : operand g allowSymbol c = .ok (x, c')) : x.Composed .part := by
  cases operand_eq_ok.1 h with
  | braced _ inside => exact hg.ofBracketed inside
  | digit | symbol | infinity => exact composed_leaf rfl rfl trivial trivial

theorem ofOperands (hg : g.Composes) {allow allow' : Bool} {y : Formula} {middle : Cursor}
    (h : operand g allow c = .ok (x, middle)) (h' : operand g allow' middle = .ok (y, c')) :
    ∀ z ∈ [x, y], z.Composed .part := by
  simp [hg.ofOperand h, hg.ofOperand h']

theorem ofLogBase (hg : g.Composes) {base : Option Formula} (h : logBase g f c = .ok (base, c')) :
    ∀ x ∈ base, x.Composed .part := by
  cases logBase_eq_ok.1 h with
  | written _ _ below => simpa using hg.ofOperand below
  | absent => simp

theorem ofRaise (hx : x.Composed .part) : ∀ y ∈ (raise f x).2, y.Composed .part := by
  unfold raise
  split
  · split <;> simp [hx]
  · simpa using hx

theorem ofFunctionExponent (hg : g.Composes) {r : Builtin × Option Formula}
    (h : functionExponent g f c = .ok (r, c')) : ∀ x ∈ r.2, x.Composed .part := by
  cases functionExponent_eq_ok.1 h with
  | written _ above => exact ofRaise (hg.exponent above)
  | absent => simp

theorem ofFunctionArguments (hg : g.Composes) {r : List Formula × Bool}
    (h : functionArguments g f mode c = .ok (r, c')) : ∀ x ∈ r.1, x.Composed .part := by
  cases functionArguments_eq_ok.1 h with
  | pair _ left right => exact hg.ofOperands left right
  | delimited _ _ _ inside => exact hg.arguments inside
  | bare _ _ _ follows => exact List.forall_mem_singleton.2 (hg.signedTerm follows).1

theorem ofApplication (hg : g.Composes) (h : application g f mode c = .ok (x, c')) :
    x.Composed .part := by
  obtain ⟨base, c₁, f', power, c₂, args, delimited, hb, hp, ha, rfl⟩ := application_eq_ok.1 h
  have hall : ∀ y ∈ args ++ base.toList, y.Composed .part :=
    List.forall_mem_append.2
      ⟨hg.ofFunctionArguments ha, fun y hy => hg.ofLogBase hb y (Option.mem_toList.1 hy)⟩
  cases power with
  | none => exact composed_of_parts rfl trivial trivial hall
  | some e =>
    exact composed_of_parts rfl trivial trivial
      (List.forall_mem_cons.2 ⟨hg.ofFunctionExponent hp e rfl, hall⟩)

theorem ofRoot (hg : g.Composes) (h : root g c = .ok (x, c')) : x.Composed .part := by
  cases root_eq_ok.1 h with
  | indexed _ inside under =>
    exact composed_of_parts rfl trivial trivial
      (by simp [Formula.parts, hg.ofBracketed inside, hg.ofOperand under])
  | plain _ under =>
    exact composed_of_parts rfl trivial trivial (List.forall_mem_singleton.2 (hg.ofOperand under))

theorem ofFraction (hg : g.Composes) (h : fraction g c = .ok (x, c')) : x.Composed .part := by
  obtain ⟨top, middle, bottom, ht, hb, rfl⟩ := fraction_eq_ok.1 h
  exact composed_of_parts rfl trivial trivial (hg.ofOperands ht hb)

theorem ofBinomial (hg : g.Composes) (h : binomial g c = .ok (x, c')) : x.Composed .part := by
  obtain ⟨top, middle, bottom, ht, hb, rfl⟩ := binomial_eq_ok.1 h
  exact composed_of_parts rfl trivial trivial (hg.ofOperands ht hb)

theorem ofBars (hg : g.Composes) (h : bars g c = .ok (x, c')) : x.Composed .part := by
  cases bars_eq_ok.1 h with
  | absolute inside _ | ket inside _ =>
    exact composed_of_parts rfl trivial trivial (List.forall_mem_singleton.2 (hg.sum inside))

theorem ofAngle (hg : g.Composes) (h : angle g c = .ok (x, c')) : x.Composed .part := by
  cases angle_eq_ok.1 h with
  | innerProduct left _ _ right _ =>
    exact composed_of_parts rfl trivial trivial
      (by simp [Formula.parts, hg.sum left, hg.sum right])
  | bra left _ _ =>
    exact composed_of_parts rfl trivial trivial (List.forall_mem_singleton.2 (hg.sum left))

theorem ofDifferential {isPartial : Bool} (h : differential isPartial c = .ok (x, c')) :
    x.Composed .part ∧ x.isDifferential = true := by
  cases differential_eq_ok.1 h with
  | named | bare => exact ⟨composed_leaf rfl rfl trivial trivial, rfl⟩

theorem ofBound {α β : Type} {A : α → Prop} {B : β → Prop} {lower : Cursor → α → Cursor → Prop}
    {upper : Cursor → β → Cursor → Prop} {bounds r : Option α × Option β}
    (hlower : ∀ a, lower c.next a c' → A a) (hupper : ∀ b, upper c.next b c' → B b)
    (hb : (∀ a ∈ bounds.1, A a) ∧ ∀ b ∈ bounds.2, B b) (h : BoundStep lower upper c bounds r c') :
    (∀ a ∈ r.1, A a) ∧ ∀ b ∈ r.2, B b :=
  (h.holds (R := fun _ => True) (fun _ a h => ⟨hlower a h, trivial⟩)
    (fun _ b h => ⟨hupper b h, trivial⟩) hb trivial).1

theorem ofIndexBinding (hg : g.Composes) {r : String × Formula}
    (h : indexBinding g c = .ok (r, c')) : r.2.Composed .part := by
  obtain ⟨-, name, after, lower, -, -, inside, rfl⟩ := indexBinding_eq_ok.1 h
  exact hg.ofBracketed inside

theorem ofAggregateBound (hg : g.Composes) {bounds r : Option (String × Formula) × Option Formula}
    (hb : (∀ b ∈ bounds.1, b.2.Composed .part) ∧ ∀ b ∈ bounds.2, b.Composed .part)
    (h : aggregateBound g bounds c = .ok (r, c')) :
    (∀ b ∈ r.1, b.2.Composed .part) ∧ ∀ b ∈ r.2, b.Composed .part :=
  ofBound (fun _ h => hg.ofIndexBinding h) (fun _ h => hg.ofOperand h) hb
    (aggregateBound_eq_ok.1 h)

theorem ofAggregate (hg : g.Composes) {kind : Aggregate}
    (h : aggregate g kind mode c = .ok (x, c')) : x.Composed .part := by
  obtain ⟨bounds, c₁, name, lower, upper, c₂, body, h₁, h₂, hb, rfl⟩ := aggregate_eq_ok.1 h
  obtain ⟨hl, hu⟩ := hg.ofAggregateBound (hg.ofAggregateBound (by simp) h₁) h₂
  exact composed_of_parts rfl trivial trivial
    (by simp [Formula.parts, hl _ rfl, hu _ rfl, (hg.signedTerm hb).1])

theorem ofIntegralLimit (hg : g.Composes) (h : integralLimit g c = .ok (x, c')) :
    x.Composed .part := by
  cases integralLimit_eq_ok.1 h with
  | negated _ follows =>
    exact composed_of_parts rfl trivial trivial
      (List.forall_mem_singleton.2 (hg.ofOperand follows))
  | plain _ here => exact hg.ofOperand here

theorem ofIntegralBound (hg : g.Composes) {bounds r : Option Formula × Option Formula}
    (hb : (∀ b ∈ bounds.1, b.Composed .part) ∧ ∀ b ∈ bounds.2, b.Composed .part)
    (h : integralBound g bounds c = .ok (r, c')) :
    (∀ b ∈ r.1, b.Composed .part) ∧ ∀ b ∈ r.2, b.Composed .part :=
  ofBound (fun _ h => hg.ofIntegralLimit h) (fun _ h => hg.ofIntegralLimit h) hb
    (integralBound_eq_ok.1 h)

/-- Only here may a term be put behind a differential. -/
theorem ofIntegralBody (hg : g.Composes) (h : integralBody g mode c = .ok (x, c')) :
    x.Composed .integrand := by
  cases integralBody_eq_ok.1 h with
  | @differentialFirst _ d x _ _ _ first _ follows =>
    obtain ⟨hd, hdifferential⟩ := ofDifferential first
    obtain ⟨hx, hterm⟩ := hg.signedTerm follows
    refine composed_of_parts rfl ⟨?_, .inr ⟨rfl, hdifferential, hterm⟩⟩
      (.inr ⟨rfl, hdifferential⟩) (by simp [Formula.parts, hd, hx])
    cases d <;> simp_all [Formula.isDifferential, Formula.isTerm, Formula.isFactor]
  | differentialOnly _ first _ => exact (ofDifferential first).1.anywhere _
  | term _ here => exact (hg.signedTerm here).1.anywhere _

theorem ofIntegral (hg : g.Composes) (h : integral g mode c = .ok (x, c')) : x.Composed .part := by
  obtain ⟨bounds, c₁, lower, upper, c₂, body, h₁, h₂, hb, rfl⟩ := integral_eq_ok.1 h
  obtain ⟨hl, hu⟩ := hg.ofIntegralBound (hg.ofIntegralBound (by simp) h₁) h₂
  refine .mk trivial trivial fun q y hy => ?_
  simp only [Formula.placedParts, List.mem_append, List.mem_map, Option.mem_toList,
    List.mem_singleton] at hy
  obtain ⟨z, hz, heq⟩ | heq := hy
  · obtain ⟨rfl, rfl⟩ := Prod.mk.inj heq
    exact hz.elim (hl z) (hu z)
  · obtain ⟨rfl, rfl⟩ := Prod.mk.inj heq
    exact hg.ofIntegralBody hb

theorem ofLimit (hg : g.Composes) (h : limit g mode c = .ok (x, c')) : x.Composed .part := by
  obtain ⟨name, c₁, approach, c₂, s, c₃, body, -, -, -, -, target, -, -, hb, rfl⟩ :=
    limit_eq_ok.1 h
  exact composed_of_parts rfl trivial trivial
    (by simp [Formula.parts, hg.sum target, (hg.signedTerm hb).1])

theorem ofAtom (hg : g.Composes) (h : atom g mode c = .ok (x, c')) : x.Composed .part := by
  cases atom_eq_ok.1 h with
  | number | infinity => exact composed_leaf rfl rfl trivial trivial
  | symbolOrCall _ read => exact hg.ofSymbolOrCall read
  | floor _ inside | ceil _ inside =>
    exact composed_of_parts rfl trivial trivial
      (List.forall_mem_singleton.2 (hg.ofBracketed inside))
  | angle _ inside => exact hg.ofAngle inside
  | group _ _ inside => exact hg.ofGroup inside
  | bars _ _ inside => exact hg.ofBars inside
  | application _ read => exact hg.ofApplication read
  | root _ read => exact hg.ofRoot read
  | fraction _ read => exact hg.ofFraction read
  | binomial _ read => exact hg.ofBinomial read
  | sum _ read | product _ read => exact hg.ofAggregate read
  | integral _ read => exact hg.ofIntegral read
  | limit _ read => exact hg.ofLimit read
  | differential _ read => exact (ofDifferential read).1

theorem ofFactor (hg : g.Composes) (h : factor g mode c = .ok (x, c')) :
    x.Composed .part ∧ x.isFactor = true ∧ ∃ after, atom g mode c = .ok (x.stem, after) := by
  obtain ⟨base, after, ha, ht⟩ := factor_eq_ok.1 h
  obtain ⟨k, -, hk⟩ := begins_of_atom ha
  obtain ⟨hfactor, hstem⟩ := Token.Kind.atom_of_begins hk
  obtain ⟨hx, hxf, hxs⟩ := hg.factorTail ht (hg.ofAtom ha) hfactor
  exact ⟨hx, hxf, after, by rw [hxs, hstem, ha]⟩

theorem composed_over {base : Formula} {e : Exponent} (hb : base.Composed .part)
    (hfactor : base.isFactor = true) (he : e.Composed) :
    (e.over base).Composed .part ∧ (e.over base).isFactor = true ∧
      (e.over base).stem = base.stem := by
  cases e with
  | value y =>
    exact ⟨composed_of_parts rfl hfactor trivial
      (List.forall_mem_cons.2 ⟨hb, List.forall_mem_singleton.2 he⟩), rfl, rfl⟩
  | dagger | prime =>
    exact ⟨composed_of_parts rfl hfactor trivial (List.forall_mem_singleton.2 hb), rfl, rfl⟩

theorem ofFactorTail (hg : g.Composes) {base : Formula}
    (h : Grammar.factorTail g mode base c = .ok (x, c')) (hb : base.Composed .part)
    (hfactor : base.isFactor = true) :
    x.Composed .part ∧ x.isFactor = true ∧ x.stem = base.stem := by
  cases factorTail_eq_ok.1 h with
  | side | done => exact ⟨hb, hfactor, rfl⟩
  | exponent _ _ above more =>
    obtain ⟨ho, hof, hos⟩ := composed_over hb hfactor (hg.exponent above)
    obtain ⟨hx, hxf, hxs⟩ := hg.factorTail more ho hof
    exact ⟨hx, hxf, hxs.trans hos⟩
  | factorial _ more | primed _ more =>
    -- the stem of what is built here is that of the base, by definition
    have hx := hg.factorTail more
      (composed_of_parts rfl hfactor trivial (List.forall_mem_singleton.2 hb)) rfl
    exact hx

theorem ofExponent (hg : g.Composes) {e : Exponent} (h : Grammar.exponent g c = .ok (e, c')) :
    e.Composed := by
  cases exponent_eq_ok.1 h with
  | marker _ all => rcases (bracedMarker_eq_some.1 all).2 with ⟨-, rfl⟩ | ⟨-, rfl⟩ <;> trivial
  | braced _ _ inside => exact hg.ofBracketed inside
  | dagger | prime => trivial
  | negated _ follows =>
    exact composed_of_parts rfl trivial trivial
      (List.forall_mem_singleton.2 (hg.exponent follows))
  | digit | symbol | infinity => exact composed_leaf rfl rfl trivial trivial
  | group _ inside => exact hg.ofGroup inside
  | fraction _ read => exact hg.ofFraction read
  | binomial _ read => exact hg.ofBinomial read
  | root _ read => exact hg.ofRoot read

theorem ofSigned {signed bare : Cursor → Attempt (Formula × Cursor)} {P : Formula → Prop}
    (hs : ∀ {c c' : Cursor} {x : Formula}, signed c = .ok (x, c') →
      x.Composed .part ∧ P x.unsigned)
    (hb : ∀ {c c' : Cursor} {x : Formula}, bare c = .ok (x, c') → x.Composed .part ∧ P x.unsigned)
    (h : SignedStep signed bare c x c') : x.Composed .part ∧ P x.unsigned := by
  cases h with
  | minus _ follows =>
    obtain ⟨hx, hp⟩ := hs follows
    exact ⟨composed_of_parts rfl trivial trivial (List.forall_mem_singleton.2 hx), hp⟩
  | plus _ follows => exact hs follows
  | bare _ _ here => exact hb here

theorem ofSignedFactor (hg : g.Composes) (h : Grammar.signedFactor g mode c = .ok (x, c')) :
    x.Composed .part ∧ x.unsigned.isFactor = true := by
  refine ofSigned (P := fun y => y.isFactor = true) hg.signedFactor (fun hx => ?_)
    (signedFactor_eq_ok.1 h)
  obtain ⟨hx, hfactor, -⟩ := hg.ofFactor hx
  exact ⟨hx, by rwa [unsigned_of_isTerm (isTerm_of_isFactor hfactor)]⟩

theorem ofTerm (hg : g.Composes) (h : term g mode c = .ok (x, c')) :
    x.Composed .part ∧ x.isTerm = true := by
  obtain ⟨left, after, hf, ht⟩ := term_eq_ok.1 h
  obtain ⟨hl, hfactor, -⟩ := hg.ofFactor hf
  exact hg.termTail ht hl (isTerm_of_isFactor hfactor)

theorem ofSignedTerm (hg : g.Composes) (h : Grammar.signedTerm g mode c = .ok (x, c')) :
    x.Composed .part ∧ x.unsigned.isTerm = true := by
  refine ofSigned (P := fun y => y.isTerm = true) hg.signedTerm (fun hx => ?_)
    (signedTerm_eq_ok.1 h)
  obtain ⟨hx, hterm⟩ := hg.ofTerm hx
  exact ⟨hx, by rwa [unsigned_of_isTerm hterm]⟩

theorem ofTermTail (hg : g.Composes) {left : Formula}
    (h : Grammar.termTail g mode left c = .ok (x, c')) (hl : left.Composed .part)
    (hterm : left.isTerm = true) : x.Composed .part ∧ x.isTerm = true := by
  cases termTail_eq_ok.1 h with
  | differential | bareArgument | done => exact ⟨hl, hterm⟩
  | @explicit op right _ _ _ _ sign _ follows more =>
    obtain ⟨hr, hsigned⟩ := hg.signedFactor follows
    have hparts : ∀ y ∈ [left, right], y.Composed .part := by simp [hl, hr]
    obtain ⟨-, rfl⟩ | ⟨-, rfl⟩ := factorSign_eq_some.1 sign
    · exact hg.termTail more (composed_of_parts rfl ⟨hterm, hsigned⟩ trivial hparts) rfl
    · exact hg.termTail more (composed_of_parts rfl ⟨hterm, hsigned⟩ trivial hparts) rfl
  | @juxtaposed shape right _ _ _ other _ chosen follows more =>
    obtain ⟨hr, hfactor, after, ha⟩ := hg.ofFactor follows
    obtain ⟨hdifferential, hsuits⟩ := suits_of_adjacency chosen ha
    have hmeets : left.Meets shape right := ⟨other, hdifferential, hsuits⟩
    exact hg.termTail more (composed_of_parts rfl ⟨hterm, .inl hfactor⟩ (.inl hmeets)
      (by simp [Formula.parts, hl, hr])) rfl

theorem ofSum (hg : g.Composes) (h : Grammar.sum g mode c = .ok (x, c')) : x.Composed .part := by
  obtain ⟨left, after, hs, ht⟩ := sum_eq_ok.1 h
  exact hg.sumTail ht (hg.signedTerm hs).1

theorem ofSumTail (hg : g.Composes) {left : Formula}
    (h : Grammar.sumTail g mode left c = .ok (x, c')) (hl : left.Composed .part) :
    x.Composed .part := by
  cases sumTail_eq_ok.1 h with
  | side | done => exact hl
  | @more op right _ _ _ sign _ follows more =>
    obtain ⟨hr, hterm⟩ := hg.signedTerm follows
    have hparts : ∀ y ∈ [left, right], y.Composed .part := by simp [hl, hr]
    obtain ⟨-, rfl⟩ | ⟨-, rfl⟩ := termSign_eq_some.1 sign
    · exact hg.sumTail more
        (composed_of_parts rfl (not_sum_of_unsigned hterm) trivial hparts)
    · exact hg.sumTail more
        (composed_of_parts rfl (not_sum_of_unsigned hterm) trivial hparts)

theorem ofArguments (hg : g.Composes) {xs : List Formula}
    (h : Grammar.arguments g d c = .ok (xs, c')) : ∀ x ∈ xs, x.Composed .part := by
  cases arguments_eq_ok.1 h with
  | more first _ follows => exact List.forall_mem_cons.2 ⟨hg.sum first, hg.arguments follows⟩
  | last first _ => exact List.forall_mem_singleton.2 (hg.sum first)

theorem deeper (hg : g.Composes) : g.deeper.Composes where
  sum := hg.ofSum
  sumTail := hg.ofSumTail
  signedTerm := hg.ofSignedTerm
  termTail := hg.ofTermTail
  signedFactor := hg.ofSignedFactor
  factorTail := hg.ofFactorTail
  exponent := hg.ofExponent
  arguments := hg.ofArguments

end Rules.Composes

theorem composes_rules (declared : List String) (depth : Nat) :
    (rules declared depth).Composes := by
  induction depth with
  | zero => exact composes_exhausted declared
  | succ depth ih => exact ih.deeper

theorem composed_member {g : Rules} (hg : g.Composes) {c c' : Cursor} {x : Formula}
    (h : member g c = .ok (x, c')) : x.Composed .whole := by
  cases member_eq_ok.1 h with
  | relation first _ second _ =>
    exact composed_of_parts rfl rfl trivial
      (by simp [Formula.parts, hg.sum first, hg.sum second])
  | expression only _ => exact (hg.sum only).anywhere _

end Grammar

namespace Formula

variable {declared : List String} {tokens : List Token} {limit : Nat} {shape : Adjacency}
  {x l r : Formula} {p : Place}

theorem composed_of_ofTokens (h : ofTokens declared tokens limit = .ok x) : x.Composed .whole := by
  obtain ⟨last, hm, -⟩ := ofTokens_eq_ok.1 h
  exact Grammar.composed_member (Grammar.composes_rules declared _) hm

/-- Every part of a formula that is read respects precedence, at any depth, and
a relation is the whole formula. -/
theorem isRanked_of_ofTokens {y : Formula} (h : ofTokens declared tokens limit = .ok x)
    (hy : x.OccursAt p y) : y.IsRanked p ∧ (y.isRelation = true → y = x) := by
  have hranked : y.IsRanked p := ((composed_of_ofTokens h).of_occursAt hy).isRanked
  refine ⟨hranked, fun hr => ?_⟩
  cases y with
  | relation =>
    obtain rfl : p = .whole := hranked
    exact hy.eq_of_whole
  | _ => cases hr

theorem isRanked_differential_first : ∃ tokens x,
    Token.lex "1-\\int dx \\frac1xy" = .ok tokens ∧ ofTokens [] tokens 19 = .ok x ∧
      ∃ d y, x.OccursAt .integrand (.juxtaposed .differential d y) ∧ y.isFactor = false ∧
        (juxtaposed .differential d y).IsRanked .integrand := by
  let d := differential (some "x") false
  let y := juxtaposed .fraction (.fraction (.number "1") (.symbol "x")) (.symbol "y")
  have hread : (Token.lex "1-\\int dx \\frac1xy").toOption.bind (fun tokens =>
      (ofTokens [] tokens 19).toOption) = some (.binary .sub (.number "1")
        (.integral none none (.juxtaposed .differential d y))) := by
    rfl
  obtain ⟨tokens, htokens, hx⟩ := Option.bind_eq_some_iff.1 hread
  have hx := toOption_eq_some.1 hx
  have hoccurs : OccursAt (.binary .sub (.number "1")
      (.integral none none (.juxtaposed .differential d y))) .integrand
      (.juxtaposed .differential d y) :=
    .inside (.inside .whole (List.mem_cons_of_mem _ List.mem_cons_self)) List.mem_cons_self
  exact ⟨tokens, _, toOption_eq_some.1 htokens, hx, d, y, hoccurs, rfl,
    (isRanked_of_ofTokens hx hoccurs).1⟩

/-- In every implicit product but that of a differential in front of an
integrand, the shape fits the factors that meet. -/
theorem meets_of_ofTokens (h : ofTokens declared tokens limit = .ok x)
    (hy : x.OccursAt p (.juxtaposed shape l r))
    (hother : ¬(p = .integrand ∧ l.isDifferential = true)) : l.Meets shape r :=
  ((composed_of_ofTokens h).of_occursAt hy).isJoined.resolve_right hother

theorem meets_group_and_call : ∃ tokens x, Token.lex "2(a)f_1(x)^2" = .ok tokens ∧
    ofTokens [] tokens 12 = .ok x ∧
      ∃ l r, x.OccursAt .whole (.juxtaposed .groups l r) ∧
        ¬(Place.whole = .integrand ∧ l.isDifferential = true) ∧
        l.lastFactor = .group (.symbol "a") ∧ r.stem = .call "f_1" [.symbol "x"] ∧
        l.Meets .groups r := by
  let l := juxtaposed .numberOrSymbol (.number "2") (.group (.symbol "a"))
  let r := power (.call "f_1" [.symbol "x"]) (.number "2")
  have hread : (Token.lex "2(a)f_1(x)^2").toOption.bind (fun tokens =>
      (ofTokens [] tokens 12).toOption) = some (.juxtaposed .groups l r) := by
    rfl
  obtain ⟨tokens, htokens, hx⟩ := Option.bind_eq_some_iff.1 hread
  have hx := toOption_eq_some.1 hx
  have hother : ¬(Place.whole = .integrand ∧ l.isDifferential = true) := by simp
  exact ⟨tokens, _, toOption_eq_some.1 htokens, hx, l, r, .whole, hother, rfl, rfl,
    meets_of_ofTokens hx .whole hother⟩

end Formula

end AnswerKey

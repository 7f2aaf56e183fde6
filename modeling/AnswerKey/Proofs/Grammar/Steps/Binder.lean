import AnswerKey.Proofs.Grammar.Steps.Application

/-! Successful readings of differentials, sums, products, integrals and limits. -/
namespace AnswerKey.Grammar

variable {g : Rules} {mode : Mode} {c c' : Cursor} {x : Formula}

inductive DifferentialStep (isPartial : Bool) (c : Cursor) : Formula → Cursor → Prop
  | named {name : String} {after : Cursor} (written : symbolName c = .ok (name, after)) :
      DifferentialStep isPartial c (.differential (some name) isPartial) after
  | bare (other : c.kind ≠ some .symbol) :
      DifferentialStep isPartial c (.differential none isPartial) c

theorem kind_of_symbolName {name : String} (h : symbolName c = .ok (name, c')) :
    c.kind = some .symbol := by
  cases symbolName_eq_ok.1 h with
  | plain here _ => exact here
  | subscripted here _ _ => exact here

theorem differential_eq_ok {isPartial : Bool} :
    differential isPartial c = .ok (x, c') ↔ DifferentialStep isPartial c x c' := by
  constructor
  · intro h
    unfold differential at h
    split at h
    · next hk =>
      simp only [bind_eq_ok, lift_eq_ok, Prod.exists, pure_eq_ok, Prod.mk.injEq] at h
      obtain ⟨name, after, hn, rfl, rfl⟩ := h
      exact .named hn
    · next hk =>
      obtain ⟨rfl, rfl⟩ : .differential none isPartial = x ∧ c = c' := by simpa using h
      exact .bare hk
  · intro h
    cases h with
    | named written => simp [differential, kind_of_symbolName written, written]
    | bare other => simp [differential, other]

theorem indexBinding_eq_ok {r : String × Formula} : indexBinding g c = .ok (r, c') ↔
    c.kind = some (.opening .curly) ∧ ∃ name after lower, symbolName c.next = .ok (name, after) ∧
      after.kind = some (.relation .equal) ∧ bracketed g .curly after.next = .ok (lower, c') ∧
      (name, lower) = r := by
  simp [indexBinding, Cursor.expect_eq_ok, and_assoc]

/-- One bound that a sign writes, besides the bounds read so far. The lower one
stands after an underscore, the upper one after a caret. -/
inductive BoundStep {α β : Type} (lower : Cursor → α → Cursor → Prop)
    (upper : Cursor → β → Cursor → Prop) (c : Cursor) :
    Option α × Option β → Option α × Option β → Cursor → Prop
  | lower {a : α} {b? : Option β} {after : Cursor} (mark : c.kind = some .underscore)
      (below : lower c.next a after) : BoundStep lower upper c (none, b?) (some a, b?) after
  | upper {a? : Option α} {b : β} {after : Cursor} (mark : c.kind = some .caret)
      (above : upper c.next b after) : BoundStep lower upper c (a?, none) (a?, some b) after
  | absent {a? : Option α} {b? : Option β}
      (noLower : c.kind = some .underscore → a? ≠ none)
      (noUpper : c.kind = some .caret → b? ≠ none) :
      BoundStep lower upper c (a?, b?) (a?, b?) c

theorem BoundStep.holds {α β : Type} {A : α → Prop} {B : β → Prop} {R : Cursor → Prop}
    {lower : Cursor → α → Cursor → Prop} {upper : Cursor → β → Cursor → Prop}
    {bounds r : Option α × Option β}
    (hlower : c.kind = some .underscore → ∀ a, lower c.next a c' → A a ∧ R c')
    (hupper : c.kind = some .caret → ∀ b, upper c.next b c' → B b ∧ R c')
    (hb : (∀ a ∈ bounds.1, A a) ∧ ∀ b ∈ bounds.2, B b) (hc : R c)
    (h : BoundStep lower upper c bounds r c') :
    ((∀ a ∈ r.1, A a) ∧ ∀ b ∈ r.2, B b) ∧ R c' := by
  cases h with
  | lower mark below =>
    obtain ⟨ha, hr⟩ := hlower mark _ below
    exact ⟨⟨by simpa using ha, hb.2⟩, hr⟩
  | upper mark above =>
    obtain ⟨ha, hr⟩ := hupper mark _ above
    exact ⟨⟨hb.1, by simpa using ha⟩, hr⟩
  | absent => exact ⟨hb, hc⟩

/-- One bound by what reads a lower and an upper one, for aggregates and integrals
alike. -/
def oneBound {α β : Type} (lower : Cursor → Attempt (α × Cursor))
    (upper : Cursor → Attempt (β × Cursor)) (bounds : Option α × Option β) (c : Cursor) :
    Attempt ((Option α × Option β) × Cursor) :=
  match c.kind, bounds with
  | some .underscore, (none, b?) => do
    let (a, c) ← lower c.next
    return ((some a, b?), c)
  | some .caret, (a?, none) => do
    let (b, c) ← upper c.next
    return ((a?, some b), c)
  | _, _ => .ok (bounds, c)

theorem oneBound_eq_ok {α β : Type} {lower : Cursor → Attempt (α × Cursor)}
    {upper : Cursor → Attempt (β × Cursor)} {bounds r : Option α × Option β} :
    oneBound lower upper bounds c = .ok (r, c') ↔
      BoundStep (fun c a after => lower c = .ok (a, after))
        (fun c b after => upper c = .ok (b, after)) c bounds r c' := by
  constructor
  · intro h
    unfold oneBound at h
    split at h
    · next b? hk =>
      simp only [bind_eq_ok, Prod.exists] at h
      obtain ⟨a, after, ha, h⟩ := h
      obtain ⟨rfl, rfl⟩ : (some a, b?) = r ∧ after = c' := by simpa using h
      exact .lower hk ha
    · next a? hk =>
      simp only [bind_eq_ok, Prod.exists] at h
      obtain ⟨b, after, hb, h⟩ := h
      obtain ⟨rfl, rfl⟩ : (a?, some b) = r ∧ after = c' := by simpa using h
      exact .upper hk hb
    · next h1 h2 =>
      obtain ⟨rfl, rfl⟩ : _ = r ∧ c = c' := by simpa using h
      exact .absent (fun hk ha => h1 _ hk (by rw [← ha])) fun hk hb => h2 _ hk (by rw [← hb])
  · intro h
    cases h with
    | lower mark below => simp [oneBound, mark, below]
    | upper mark above => simp [oneBound, mark, above]
    | absent noLower noUpper =>
      unfold oneBound
      split <;> simp_all

theorem aggregateBound_eq (bounds : Option (String × Formula) × Option Formula) (c : Cursor) :
    aggregateBound g bounds c = oneBound (indexBinding g) (operand g true) bounds c := by
  unfold aggregateBound oneBound
  split <;> simp_all

theorem aggregateBound_eq_ok {bounds r : Option (String × Formula) × Option Formula} :
    aggregateBound g bounds c = .ok (r, c') ↔
      BoundStep (fun c a after => indexBinding g c = .ok (a, after))
        (fun c b after => operand g true c = .ok (b, after)) c bounds r c' := by
  rw [aggregateBound_eq, oneBound_eq_ok]

theorem aggregate_eq_ok {kind : Aggregate} : aggregate g kind mode c = .ok (x, c') ↔
    ∃ bounds c₁ name lower upper c₂ body,
      aggregateBound g (none, none) c = .ok (bounds, c₁) ∧
      aggregateBound g bounds c₁ = .ok ((some (name, lower), some upper), c₂) ∧
      g.signedTerm { mode with bareArgument := false } c₂ = .ok (body, c') ∧
      .aggregate kind name lower upper body = x := by
  constructor
  · intro h
    simp only [aggregate, bind_eq_ok, Prod.exists] at h
    obtain ⟨l, u, c₁, h₁, l', u', c₂, h₂, h⟩ := h
    split at h
    · simp at h
    · simp at h
    · next name lower upper =>
      simp only [bind_eq_ok, Prod.exists, pure_eq_ok, Prod.mk.injEq] at h
      obtain ⟨body, after, hb, rfl, rfl⟩ := h
      exact ⟨_, c₁, name, lower, upper, c₂, body, h₁, h₂, hb, rfl⟩
  · rintro ⟨bounds, c₁, name, lower, upper, c₂, body, h₁, h₂, hb, rfl⟩
    refine bind_eq_ok.2 ⟨_, h₁, bind_eq_ok.2 ⟨_, h₂, bind_eq_ok.2 ⟨_, hb, rfl⟩⟩⟩

inductive IntegralLimitStep (g : Rules) (c : Cursor) : Formula → Cursor → Prop
  | negated {x : Formula} {after : Cursor} (sign : c.kind = some .minus)
      (follows : operand g true c.next = .ok (x, after)) : IntegralLimitStep g c (.negated x) after
  | plain {x : Formula} {after : Cursor} (other : c.kind ≠ some .minus)
      (here : operand g true c = .ok (x, after)) : IntegralLimitStep g c x after

theorem integralLimit_eq_ok : integralLimit g c = .ok (x, c') ↔ IntegralLimitStep g c x c' := by
  constructor
  · intro h
    unfold integralLimit at h
    split at h
    · next hk =>
      simp only [bind_eq_ok, Prod.exists, pure_eq_ok, Prod.mk.injEq] at h
      obtain ⟨y, after, hy, rfl, rfl⟩ := h
      exact .negated hk hy
    · next hk => exact .plain hk h
  · intro h
    cases h with
    | negated sign follows => simp [integralLimit, sign, follows]
    | plain other here => simp [integralLimit, other, here]

theorem integralBound_eq (bounds : Option Formula × Option Formula) (c : Cursor) :
    integralBound g bounds c = oneBound (integralLimit g) (integralLimit g) bounds c := by
  unfold integralBound oneBound
  split <;> simp_all

theorem integralBound_eq_ok {bounds r : Option Formula × Option Formula} :
    integralBound g bounds c = .ok (r, c') ↔
      BoundStep (fun c a after => integralLimit g c = .ok (a, after))
        (fun c b after => integralLimit g c = .ok (b, after)) c bounds r c' := by
  rw [integralBound_eq, oneBound_eq_ok]

def differentialMark (isPartial : Bool) : Token.Kind :=
  if isPartial then .partialSign else .differential

inductive IntegralBodyStep (g : Rules) (mode : Mode) (c : Cursor) : Formula → Cursor → Prop
  | differentialFirst {isPartial : Bool} {d x : Formula} {middle after : Cursor}
      (mark : c.kind = some (differentialMark isPartial))
      (first : differential isPartial c.next = .ok (d, middle))
      (more : startsFactor mode middle = true)
      (follows : g.signedTerm mode middle = .ok (x, after)) :
      IntegralBodyStep g mode c (.juxtaposed .differential d x) after
  | differentialOnly {isPartial : Bool} {d : Formula} {after : Cursor}
      (mark : c.kind = some (differentialMark isPartial))
      (first : differential isPartial c.next = .ok (d, after))
      (last : startsFactor mode after = false) : IntegralBodyStep g mode c d after
  | term {x : Formula} {after : Cursor}
      (unmarked : ∀ isPartial, c.kind ≠ some (differentialMark isPartial))
      (here : g.signedTerm mode c = .ok (x, after)) : IntegralBodyStep g mode c x after

theorem integralBody_eq_ok : integralBody g mode c = .ok (x, c') ↔
    IntegralBodyStep g mode c x c' := by
  constructor
  · intro h
    simp only [integralBody] at h
    split at h
    case h_3 h1 h2 =>
      refine .term (fun isPartial => ?_) h
      cases isPartial
      · exact h1
      · exact h2
    all_goals
      next hk =>
      simp only [bind_eq_ok, Prod.exists] at h
      obtain ⟨d, middle, hd, h⟩ := h
      split at h
      · next hs =>
        simp only [bind_eq_ok, Prod.exists, pure_eq_ok, Prod.mk.injEq] at h
        obtain ⟨y, after, hy, rfl, rfl⟩ := h
        refine .differentialFirst ?_ hd hs hy
        exact hk
      · next hs =>
        obtain ⟨rfl, rfl⟩ : d = x ∧ middle = c' := by simpa using h
        refine .differentialOnly ?_ hd (by simpa using hs)
        exact hk
  · intro h
    cases h with
    | @differentialFirst isPartial _ _ _ _ mark first more follows =>
      cases isPartial <;>
        simp_all [integralBody, differentialMark]
    | @differentialOnly isPartial _ _ mark first last =>
      cases isPartial <;>
        simp_all [integralBody, differentialMark]
    | term unmarked here =>
      simp only [integralBody]
      split
      · next hk => exact absurd hk (unmarked false)
      · next hk => exact absurd hk (unmarked true)
      · exact here

theorem integral_eq_ok : integral g mode c = .ok (x, c') ↔
    ∃ bounds c₁ lower upper c₂ body, integralBound g (none, none) c = .ok (bounds, c₁) ∧
      integralBound g bounds c₁ = .ok ((lower, upper), c₂) ∧
      integralBody g { mode with bareArgument := false } c₂ = .ok (body, c') ∧
      .integral lower upper body = x := by
  simp [integral]

def sideMark : Side → Token.Kind
  | .above => .plus
  | .below => .minus

theorem sign_eq_some {k : Option Token.Kind} {s : Side} :
    (match k with
      | some .plus => some .above
      | some .minus => some .below
      | _ => none) = some s ↔ k = some (sideMark s) := by
  cases s <;> (split <;> simp_all [sideMark])

theorem sign_eq_none {k : Option Token.Kind} :
    (match k with
      | some .plus => some Side.above
      | some .minus => some .below
      | _ => none) = none ↔ ∀ s, k ≠ some (sideMark s) := by
  constructor
  · intro h s hs
    rw [sign_eq_some.2 hs] at h
    cases h
  · intro h
    split
    · exact absurd rfl (h .above)
    · exact absurd rfl (h .below)
    · rfl

inductive SideStep (c : Cursor) : Option Side → Cursor → Prop
  | braced {s : Side} (mark : c.kind = some .caret)
      (opened : c.next.kind = some (.opening .curly))
      (sign : c.next.next.kind = some (sideMark s))
      (closed : c.next.next.next.kind = some (.closing .curly)) :
      SideStep c (some s) c.next.next.next.next
  | raised {s : Side} (mark : c.kind = some .caret) (sign : c.next.kind = some (sideMark s)) :
      SideStep c (some s) c.next.next
  | emptyCaret (mark : c.kind = some .caret) (unopened : c.next.kind ≠ some (.opening .curly))
      (unsigned : ∀ s, c.next.kind ≠ some (sideMark s)) : SideStep c none c.next
  | bare {s : Side} (sign : c.kind = some (sideMark s))
      (last : c.kindAt 1 = some (.closing .curly)) : SideStep c (some s) c.next
  | absent (unmarked : c.kind ≠ some .caret)
      (other : c.kindAt 1 = some (.closing .curly) → ∀ s, c.kind ≠ some (sideMark s)) :
      SideStep c none c

theorem side_eq_ok {s : Option Side} : side c = .ok (s, c') ↔ SideStep c s c' := by
  constructor
  · intro h
    simp only [side] at h
    split at h
    · next hk =>
      split at h
      · next ho =>
        split at h
        · next t hs =>
          simp only [bind_eq_ok, lift_eq_ok, Cursor.expect_eq_ok, pure_eq_ok, Prod.mk.injEq] at h
          obtain ⟨_, ⟨hc, rfl⟩, rfl, rfl⟩ := h
          exact .braced hk ho (sign_eq_some.1 hs) hc
        · simp at h
      · next ho =>
        split at h
        · next t hs =>
          obtain ⟨rfl, rfl⟩ : some t = s ∧ c.next.next = c' := by simpa using h
          exact .raised hk (sign_eq_some.1 hs)
        · next hs =>
          obtain ⟨rfl, rfl⟩ : none = s ∧ c.next = c' := by simpa using h
          exact .emptyCaret hk ho (sign_eq_none.1 hs)
    · next hk =>
      split at h
      · next ho =>
        split at h
        · next t hs =>
          obtain ⟨rfl, rfl⟩ : some t = s ∧ c.next = c' := by simpa using h
          exact .bare (sign_eq_some.1 hs) ho
        · next hs =>
          obtain ⟨rfl, rfl⟩ : none = s ∧ c = c' := by simpa using h
          exact .absent hk fun _ => sign_eq_none.1 hs
      · next ho =>
        obtain ⟨rfl, rfl⟩ : none = s ∧ c = c' := by simpa using h
        exact .absent hk fun h => absurd h ho
  · intro h
    cases h with
    | @braced s mark opened sign closed =>
      cases s <;> simp_all [side, sideMark, Cursor.expect_eq_ok]
    | @raised s mark sign => cases s <;> simp_all [side, sideMark]
    | emptyCaret mark unopened unsigned =>
      simp only [side, mark, if_true, if_neg unopened]
      split
      · next s hs => exact absurd (sign_eq_some.1 hs) (unsigned s)
      · rfl
    | @bare s sign last => cases s <;> simp_all [side, sideMark]
    | absent unmarked other =>
      simp only [side, if_neg unmarked]
      split
      · next ho =>
        split
        · next s hs => exact absurd (sign_eq_some.1 hs) (other ho s)
        · rfl
      · rfl

theorem limit_eq_ok : limit g mode c = .ok (x, c') ↔
    ∃ name c₁ approach c₂ s c₃ body, c.kind = some .underscore ∧
      c.next.kind = some (.opening .curly) ∧ symbolName c.next.next = .ok (name, c₁) ∧
      c₁.kind = some .to ∧ g.sum { limitTarget := true } c₁.next = .ok (approach, c₂) ∧
      side c₂ = .ok (s, c₃) ∧ c₃.kind = some (.closing .curly) ∧
      g.signedTerm { mode with bareArgument := false } c₃.next = .ok (body, c') ∧
      .limit name approach s body = x := by
  simp [limit, Cursor.expect_eq_ok, and_assoc]

end AnswerKey.Grammar

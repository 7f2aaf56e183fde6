import AnswerKey.Proofs.Grammar.Steps.Binder

/-! Successful readings of atoms, factors, terms, sums and members. -/
namespace AnswerKey.Grammar

variable {g : Rules} {mode : Mode} {c c' : Cursor} {x : Formula}

inductive AtomStep (g : Rules) (mode : Mode) (c : Cursor) : Formula → Cursor → Prop
  | number (here : c.kind = some .number) : AtomStep g mode c (.number c.text) c.next
  | symbolOrCall {x : Formula} {after : Cursor} (here : c.kind = some .symbol)
      (read : symbolOrCall g c = .ok (x, after)) : AtomStep g mode c x after
  | infinity (here : c.kind = some .infinity) : AtomStep g mode c .infinity c.next
  | floor {x : Formula} {after : Cursor} (here : c.kind = some (.opening .floor))
      (inside : bracketed g .floor c.next = .ok (x, after)) :
      AtomStep g mode c (.apply .floor [x] true) after
  | ceil {x : Formula} {after : Cursor} (here : c.kind = some (.opening .ceil))
      (inside : bracketed g .ceil c.next = .ok (x, after)) :
      AtomStep g mode c (.apply .ceil [x] true) after
  | angle {x : Formula} {after : Cursor} (here : c.kind = some (.opening .angle))
      (inside : angle g c.next = .ok (x, after)) : AtomStep g mode c x after
  | group {d : Delimiter} {x : Formula} {after : Cursor} (here : c.kind = some (.opening d))
      (plain : d ≠ .floor ∧ d ≠ .ceil ∧ d ≠ .angle) (inside : group g d c = .ok (x, after)) :
      AtomStep g mode c x after
  | bars {x : Formula} {after : Cursor} (here : c.kind = some .pipe)
      (outside : mode.insideBars = false) (inside : bars g c.next = .ok (x, after)) :
      AtomStep g mode c x after
  | application {f : Builtin} {x : Formula} {after : Cursor} (here : c.kind = some (.function f))
      (read : application g f mode c.next = .ok (x, after)) : AtomStep g mode c x after
  | root {x : Formula} {after : Cursor} (here : c.kind = some .sqrt)
      (read : root g c.next = .ok (x, after)) : AtomStep g mode c x after
  | fraction {x : Formula} {after : Cursor} (here : c.kind = some .frac)
      (read : fraction g c.next = .ok (x, after)) : AtomStep g mode c x after
  | binomial {x : Formula} {after : Cursor} (here : c.kind = some .binom)
      (read : binomial g c.next = .ok (x, after)) : AtomStep g mode c x after
  | sum {x : Formula} {after : Cursor} (here : c.kind = some .sum)
      (read : aggregate g .sum mode c.next = .ok (x, after)) : AtomStep g mode c x after
  | product {x : Formula} {after : Cursor} (here : c.kind = some .prod)
      (read : aggregate g .product mode c.next = .ok (x, after)) : AtomStep g mode c x after
  | integral {x : Formula} {after : Cursor} (here : c.kind = some .int)
      (read : integral g mode c.next = .ok (x, after)) : AtomStep g mode c x after
  | limit {x : Formula} {after : Cursor} (here : c.kind = some .lim)
      (read : limit g mode c.next = .ok (x, after)) : AtomStep g mode c x after
  | differential {isPartial : Bool} {x : Formula} {after : Cursor}
      (here : c.kind = some (differentialMark isPartial))
      (read : differential isPartial c.next = .ok (x, after)) : AtomStep g mode c x after

theorem atom_eq_ok : atom g mode c = .ok (x, c') ↔ AtomStep g mode c x c' := by
  constructor
  · intro h
    unfold atom at h
    split at h
    · next hk =>
      obtain ⟨rfl, rfl⟩ : .number c.text = x ∧ c.next = c' := by simpa using h
      exact .number hk
    · next hk => exact .symbolOrCall hk h
    · next hk =>
      obtain ⟨rfl, rfl⟩ : .infinity = x ∧ c.next = c' := by simpa using h
      exact .infinity hk
    · next hk =>
      simp only [bind_eq_ok, Prod.exists, pure_eq_ok, Prod.mk.injEq] at h
      obtain ⟨y, after, hy, rfl, rfl⟩ := h
      exact .floor hk hy
    · next hk =>
      simp only [bind_eq_ok, Prod.exists, pure_eq_ok, Prod.mk.injEq] at h
      obtain ⟨y, after, hy, rfl, rfl⟩ := h
      exact .ceil hk hy
    · next hk => exact .angle hk h
    · next d hf hc ha hk => exact .group hk ⟨hf, hc, ha⟩ h
    · next hk =>
      split at h
      · simp at h
      · next hm => exact .bars hk (by simpa using hm) h
    · next hk => exact .application hk h
    · next hk => exact .root hk h
    · next hk => exact .fraction hk h
    · next hk => exact .binomial hk h
    · next hk => exact .sum hk h
    · next hk => exact .product hk h
    · next hk => exact .integral hk h
    · next hk => exact .limit hk h
    · next hk => exact .differential (show c.kind = some (differentialMark false) from hk) h
    · next hk => exact .differential (show c.kind = some (differentialMark true) from hk) h
    · simp at h
  · intro h
    cases h with
    | number here | infinity here => simp [atom, here]
    | floor here inside | ceil here inside | angle here inside => simp [atom, here, inside]
    | @group d _ _ here plain inside =>
      cases d <;> simp_all [atom]
    | bars here outside inside => simp [atom, here, outside, inside]
    | symbolOrCall here read | application here read | root here read | fraction here read
    | binomial here read | sum here read | product here read | integral here read
    | limit here read => simp [atom, here, read]
    | @differential isPartial _ _ here read =>
      cases isPartial <;> simp_all [atom, differentialMark]

theorem factor_eq_ok : factor g mode c = .ok (x, c') ↔
    ∃ base after, atom g mode c = .ok (base, after) ∧
      g.factorTail mode base after = .ok (x, c') := by
  simp [factor]

def Exponent.over (base : Formula) : Exponent → Formula
  | .value x => .power base x
  | .dagger => .dagger base
  | .prime => .primed base

inductive FactorTailStep (g : Rules) (mode : Mode) (base : Formula) (c : Cursor) :
    Formula → Cursor → Prop
  | side (mark : c.kind = some .caret) (left : mode.limitTarget = true)
      (follows : sideFollows c = true) : FactorTailStep g mode base c base c
  | exponent {e : Exponent} {x : Formula} {middle after : Cursor} (mark : c.kind = some .caret)
      (other : (mode.limitTarget && sideFollows c) = false)
      (above : g.exponent c.next = .ok (e, middle))
      (more : g.factorTail mode (e.over base) middle = .ok (x, after)) :
      FactorTailStep g mode base c x after
  | factorial {x : Formula} {after : Cursor} (mark : c.kind = some .bang)
      (more : g.factorTail mode (.factorial base) c.next = .ok (x, after)) :
      FactorTailStep g mode base c x after
  | primed {x : Formula} {after : Cursor} (mark : c.kind = some .prime)
      (more : g.factorTail mode (.primed base) c.next = .ok (x, after)) :
      FactorTailStep g mode base c x after
  | done (noCaret : c.kind ≠ some .caret) (noBang : c.kind ≠ some .bang)
      (noPrime : c.kind ≠ some .prime) : FactorTailStep g mode base c base c

theorem factorTail_eq_ok {base : Formula} :
    factorTail g mode base c = .ok (x, c') ↔ FactorTailStep g mode base c x c' := by
  constructor
  · intro h
    unfold factorTail at h
    split at h
    · next hk =>
      split at h
      · next hs =>
        simp only [Bool.and_eq_true] at hs
        obtain ⟨rfl, rfl⟩ : base = x ∧ c = c' := by simpa using h
        exact .side hk hs.1 hs.2
      · next hs =>
        simp only [bind_eq_ok, Prod.exists] at h
        obtain ⟨e, middle, he, h⟩ := h
        refine .exponent hk (by simpa using hs) he ?_
        cases e <;> exact h
    · next hk => exact .factorial hk h
    · next hk => exact .primed hk h
    · next h1 h2 h3 =>
      obtain ⟨rfl, rfl⟩ : base = x ∧ c = c' := by simpa using h
      exact .done h1 h2 h3
  · intro h
    cases h with
    | side mark left follows => simp [factorTail, mark, left, follows]
    | @exponent e _ _ _ mark other above more =>
      simp only [factorTail, mark, other, Bool.false_eq_true, if_false]
      refine bind_eq_ok.2 ⟨_, above, ?_⟩
      cases e <;> exact more
    | factorial mark more | primed mark more => simp [factorTail, mark, more]
    | done noCaret noBang noPrime =>
      unfold factorTail
      split <;> simp_all

theorem bracedMarker_eq_some {e : Exponent} : bracedMarker? c = some e ↔
    c.kindAt 2 = some (.closing .curly) ∧
      (((c.kindAt 1 = some .dagger ∨ c.kindAt 1 = some .star) ∧ e = .dagger) ∨
        (c.kindAt 1 = some .prime ∧ e = .prime)) := by
  unfold bracedMarker?
  constructor
  · intro h
    split at h
    · next hc =>
      refine ⟨hc, ?_⟩
      split at h
      · next hk => exact .inl ⟨.inl hk, by simpa using h.symm⟩
      · next hk => exact .inl ⟨.inr hk, by simpa using h.symm⟩
      · next hk => exact .inr ⟨hk, by simpa using h.symm⟩
      · simp at h
    · simp at h
  · rintro ⟨hc, ⟨hk | hk, rfl⟩ | ⟨hk, rfl⟩⟩ <;> simp [hc, hk]

inductive ExponentStep (g : Rules) (c : Cursor) : Exponent → Cursor → Prop
  | marker {e : Exponent} (opened : c.kind = some (.opening .curly))
      (all : bracedMarker? c = some e) : ExponentStep g c e (c.skip 3)
  | braced {x : Formula} {after : Cursor} (opened : c.kind = some (.opening .curly))
      (other : bracedMarker? c = none) (inside : bracketed g .curly c.next = .ok (x, after)) :
      ExponentStep g c (.value x) after
  | dagger (mark : c.kind = some .dagger ∨ c.kind = some .star) : ExponentStep g c .dagger c.next
  | prime (mark : c.kind = some .prime) : ExponentStep g c .prime c.next
  | negated {x : Formula} {after : Cursor} (sign : c.kind = some .minus)
      (follows : g.exponent c.next = .ok (.value x, after)) :
      ExponentStep g c (.value (.negated x)) after
  | digit {name : String} {after : Cursor} (taken : c.takeDigit? = some (name, after)) :
      ExponentStep g c (.value (.number name)) after
  | symbol (here : c.kind = some .symbol) : ExponentStep g c (.value (.symbol c.text)) c.next
  | infinity (here : c.kind = some .infinity) : ExponentStep g c (.value .infinity) c.next
  | group {x : Formula} {after : Cursor} (opened : c.kind = some (.opening .round))
      (inside : group g .round c = .ok (x, after)) : ExponentStep g c (.value x) after
  | fraction {x : Formula} {after : Cursor} (here : c.kind = some .frac)
      (read : fraction g c.next = .ok (x, after)) : ExponentStep g c (.value x) after
  | binomial {x : Formula} {after : Cursor} (here : c.kind = some .binom)
      (read : binomial g c.next = .ok (x, after)) : ExponentStep g c (.value x) after
  | root {x : Formula} {after : Cursor} (here : c.kind = some .sqrt)
      (read : root g c.next = .ok (x, after)) : ExponentStep g c (.value x) after

theorem of_value_eq_ok {r : Attempt (Formula × Cursor)} {e : Exponent}
    (h : (do
      let (x, c) ← r
      return (Exponent.value x, c)) = (.ok (e, c') : Attempt (Exponent × Cursor))) :
    ∃ x, r = .ok (x, c') ∧ .value x = e := by
  simpa using h

theorem exponent_eq_ok {e : Exponent} :
    exponent g c = .ok (e, c') ↔ ExponentStep g c e c' := by
  constructor
  · intro h
    simp only [exponent] at h
    split at h
    · next hk =>
      split at h
      · next marker hm =>
        obtain ⟨rfl, rfl⟩ : marker = e ∧ c.skip 3 = c' := by simpa using h
        exact .marker hk hm
      · next hm =>
        obtain ⟨y, hy, rfl⟩ := of_value_eq_ok h
        exact .braced hk hm hy
    · next hk =>
      obtain ⟨rfl, rfl⟩ : .dagger = e ∧ c.next = c' := by simpa using h
      exact .dagger (.inl hk)
    · next hk =>
      obtain ⟨rfl, rfl⟩ : .dagger = e ∧ c.next = c' := by simpa using h
      exact .dagger (.inr hk)
    · next hk =>
      obtain ⟨rfl, rfl⟩ : .prime = e ∧ c.next = c' := by simpa using h
      exact .prime hk
    · next hk =>
      simp only [bind_eq_ok, Prod.exists] at h
      obtain ⟨e', after, he, h⟩ := h
      cases e' with
      | value y =>
        obtain ⟨rfl, rfl⟩ : .value (.negated y) = e ∧ after = c' := by simpa using h
        exact .negated hk he
      | dagger | prime => simp at h
    · split at h
      · next digit after ht =>
        obtain ⟨rfl, rfl⟩ : .value (.number digit) = e ∧ after = c' := by simpa using h
        exact .digit ht
      · simp at h
    · next hk =>
      obtain ⟨rfl, rfl⟩ : .value (.symbol c.text) = e ∧ c.next = c' := by simpa using h
      exact .symbol hk
    · next hk =>
      obtain ⟨rfl, rfl⟩ : .value .infinity = e ∧ c.next = c' := by simpa using h
      exact .infinity hk
    · next hk =>
      obtain ⟨y, hy, rfl⟩ := of_value_eq_ok h
      exact .group hk hy
    · next hk =>
      obtain ⟨y, hy, rfl⟩ := of_value_eq_ok h
      exact .fraction hk hy
    · next hk =>
      obtain ⟨y, hy, rfl⟩ := of_value_eq_ok h
      exact .binomial hk hy
    · next hk =>
      obtain ⟨y, hy, rfl⟩ := of_value_eq_ok h
      exact .root hk hy
    · simp at h
  · intro h
    cases h with
    | marker opened all => simp [exponent, opened, all]
    | braced opened other inside => simp [exponent, opened, other, inside]
    | dagger mark => cases mark with
      | inl hk | inr hk => simp [exponent, hk]
    | prime mark => simp [exponent, mark]
    | negated sign follows => simp [exponent, sign, follows]
    | digit taken => simp [exponent, Cursor.kind_of_takeDigit taken, taken]
    | symbol here | infinity here => simp [exponent, here]
    | group opened inside => simp [exponent, opened, inside]
    | fraction here read | binomial here read | root here read => simp [exponent, here, read]

/-- A rule for an optional run of signs before what `bare` reads. -/
inductive SignedStep (signed bare : Cursor → Attempt (Formula × Cursor)) (c : Cursor) :
    Formula → Cursor → Prop
  | minus {x : Formula} {after : Cursor} (sign : c.kind = some .minus)
      (follows : signed c.next = .ok (x, after)) : SignedStep signed bare c (.negated x) after
  | plus {x : Formula} {after : Cursor} (sign : c.kind = some .plus)
      (follows : signed c.next = .ok (x, after)) : SignedStep signed bare c x after
  | bare {x : Formula} {after : Cursor} (noMinus : c.kind ≠ some .minus)
      (noPlus : c.kind ≠ some .plus) (here : bare c = .ok (x, after)) :
      SignedStep signed bare c x after

theorem signed_eq_ok {signed bare : Cursor → Attempt (Formula × Cursor)} :
    (match c.kind with
      | some .minus => do
        let (x, c) ← signed c.next
        return (Formula.negated x, c)
      | some .plus => signed c.next
      | _ => bare c) = .ok (x, c') ↔ SignedStep signed bare c x c' := by
  constructor
  · intro h
    split at h
    · next hk =>
      simp only [bind_eq_ok, Prod.exists, pure_eq_ok, Prod.mk.injEq] at h
      obtain ⟨y, after, hy, rfl, rfl⟩ := h
      exact .minus hk hy
    · next hk => exact .plus hk h
    · next h1 h2 => exact .bare h1 h2 h
  · intro h
    cases h with
    | minus sign follows | plus sign follows => simp [sign, follows]
    | bare noMinus noPlus here => split <;> simp_all

theorem signedFactor_eq_ok : signedFactor g mode c = .ok (x, c') ↔
    SignedStep (g.signedFactor mode) (factor g mode) c x c' := signed_eq_ok

theorem signedTerm_eq_ok : signedTerm g mode c = .ok (x, c') ↔
    SignedStep (g.signedTerm mode) (term g mode) c x c' := signed_eq_ok

theorem term_eq_ok : term g mode c = .ok (x, c') ↔
    ∃ left after, factor g mode c = .ok (left, after) ∧
      g.termTail mode left after = .ok (x, c') := by
  simp [term]

def factorSign? : Option Token.Kind → Option Operation
  | some .star => some .mul
  | some .slash => some .div
  | _ => none

theorem factorSign_eq_some {k : Option Token.Kind} {op : Operation} :
    factorSign? k = some op ↔ (k = some .star ∧ op = .mul) ∨ (k = some .slash ∧ op = .div) := by
  constructor
  · intro h
    unfold factorSign? at h
    split at h
    · exact .inl ⟨rfl, by simpa using h.symm⟩
    · exact .inr ⟨rfl, by simpa using h.symm⟩
    · cases h
  · rintro (⟨rfl, rfl⟩ | ⟨rfl, rfl⟩) <;> rfl

theorem factorSign_eq_none {k : Option Token.Kind} :
    factorSign? k = none ↔ k ≠ some .star ∧ k ≠ some .slash := by
  constructor
  · intro h
    refine ⟨?_, ?_⟩
    · rintro rfl
      cases h
    · rintro rfl
      cases h
  · rintro ⟨h1, h2⟩
    unfold factorSign?
    split
    · exact absurd rfl h1
    · exact absurd rfl h2
    · rfl

inductive TermTailStep (g : Rules) (mode : Mode) (left : Formula) (c : Cursor) :
    Formula → Cursor → Prop
  | differential (last : left.lastFactor.isDifferential = true) : TermTailStep g mode left c left c
  | bareArgument {op : Operation} (other : left.lastFactor.isDifferential = false)
      (sign : factorSign? c.kind = some op) (bare : mode.bareArgument = true) :
      TermTailStep g mode left c left c
  | explicit {op : Operation} {right x : Formula} {middle after : Cursor}
      (other : left.lastFactor.isDifferential = false) (sign : factorSign? c.kind = some op)
      (free : mode.bareArgument = false) (follows : g.signedFactor mode c.next = .ok (right, middle))
      (more : g.termTail mode (.binary op left right) middle = .ok (x, after)) :
      TermTailStep g mode left c x after
  | juxtaposed {adjacency : Adjacency} {right x : Formula} {middle after : Cursor}
      (other : left.lastFactor.isDifferential = false) (unsigned : factorSign? c.kind = none)
      (shape : adjacency? g.declared left.lastFactor mode c = some adjacency)
      (follows : factor g mode c = .ok (right, middle))
      (more : g.termTail mode (.juxtaposed adjacency left right) middle = .ok (x, after)) :
      TermTailStep g mode left c x after
  | done (other : left.lastFactor.isDifferential = false) (unsigned : factorSign? c.kind = none)
      (apart : adjacency? g.declared left.lastFactor mode c = none) :
      TermTailStep g mode left c left c

theorem termTail_eq_ok {left : Formula} :
    termTail g mode left c = .ok (x, c') ↔ TermTailStep g mode left c x c' := by
  constructor
  · intro h
    simp only [termTail] at h
    split at h
    · next hl =>
      obtain ⟨rfl, rfl⟩ : left = x ∧ c = c' := by simpa using h
      exact .differential hl
    · next hl =>
      have hl : left.lastFactor.isDifferential = false := by simpa using hl
      have explicit (op : Operation) (hs : factorSign? c.kind = some op)
          (h : (if mode.bareArgument then .ok (left, c)
            else do
              let (right, c) ← g.signedFactor mode c.next
              g.termTail mode (.binary op left right) c) = Except.ok (x, c')) :
          TermTailStep g mode left c x c' := by
        split at h
        · next hb =>
          obtain ⟨rfl, rfl⟩ : left = x ∧ c = c' := by simpa using h
          exact .bareArgument hl hs hb
        · next hb =>
          simp only [bind_eq_ok, Prod.exists] at h
          obtain ⟨right, middle, hr, h⟩ := h
          exact .explicit hl hs (by simpa using hb) hr h
      split at h
      · next hk => exact explicit .mul (by rw [hk]; rfl) h
      · next hk => exact explicit .div (by rw [hk]; rfl) h
      · next h1 h2 =>
        have hs : factorSign? c.kind = none := factorSign_eq_none.2 ⟨h1, h2⟩
        split at h
        · next adjacency ha =>
          simp only [bind_eq_ok, Prod.exists] at h
          obtain ⟨right, middle, hr, h⟩ := h
          exact .juxtaposed hl hs ha hr h
        · next ha =>
          obtain ⟨rfl, rfl⟩ : left = x ∧ c = c' := by simpa using h
          exact .done hl hs ha
  · intro h
    cases h with
    | differential last => simp [termTail, last]
    | bareArgument other sign bare =>
      obtain ⟨hk, rfl⟩ | ⟨hk, rfl⟩ := factorSign_eq_some.1 sign <;>
        simp [termTail, other, hk, bare]
    | explicit other sign free follows more =>
      obtain ⟨hk, rfl⟩ | ⟨hk, rfl⟩ := factorSign_eq_some.1 sign <;>
        simp [termTail, other, hk, free, follows, more]
    | juxtaposed other unsigned shape follows more =>
      have hk := factorSign_eq_none.1 unsigned
      simp only [termTail, other, Bool.false_eq_true, if_false]
      split
      · next h => exact absurd h hk.1
      · next h => exact absurd h hk.2
      · simp [shape, follows, more]
    | done other unsigned apart =>
      have hk := factorSign_eq_none.1 unsigned
      simp only [termTail, other, Bool.false_eq_true, if_false]
      split
      · next h => exact absurd h hk.1
      · next h => exact absurd h hk.2
      · simp [apart]

theorem sum_eq_ok : sum g mode c = .ok (x, c') ↔
    ∃ left after, g.signedTerm mode c = .ok (left, after) ∧
      g.sumTail mode left after = .ok (x, c') := by
  simp [sum]

def termSign? : Option Token.Kind → Option Operation
  | some .plus => some .add
  | some .minus => some .sub
  | _ => none

theorem termSign_eq_some {k : Option Token.Kind} {op : Operation} :
    termSign? k = some op ↔ (k = some .plus ∧ op = .add) ∨ (k = some .minus ∧ op = .sub) := by
  constructor
  · intro h
    unfold termSign? at h
    split at h
    · exact .inl ⟨rfl, by simpa using h.symm⟩
    · exact .inr ⟨rfl, by simpa using h.symm⟩
    · cases h
  · rintro (⟨rfl, rfl⟩ | ⟨rfl, rfl⟩) <;> rfl

theorem termSign_eq_none {k : Option Token.Kind} :
    termSign? k = none ↔ k ≠ some .plus ∧ k ≠ some .minus := by
  constructor
  · intro h
    refine ⟨?_, ?_⟩
    · rintro rfl
      cases h
    · rintro rfl
      cases h
  · rintro ⟨h1, h2⟩
    unfold termSign?
    split
    · exact absurd rfl h1
    · exact absurd rfl h2
    · rfl

inductive SumTailStep (g : Rules) (mode : Mode) (left : Formula) (c : Cursor) :
    Formula → Cursor → Prop
  | side {op : Operation} (sign : termSign? c.kind = some op) (target : mode.limitTarget = true)
      (last : c.kindAt 1 = some (.closing .curly)) : SumTailStep g mode left c left c
  | more {op : Operation} {right x : Formula} {middle after : Cursor}
      (sign : termSign? c.kind = some op)
      (inner : ¬(mode.limitTarget = true ∧ c.kindAt 1 = some (.closing .curly)))
      (follows : g.signedTerm mode c.next = .ok (right, middle))
      (more : g.sumTail mode (.binary op left right) middle = .ok (x, after)) :
      SumTailStep g mode left c x after
  | done (unsigned : termSign? c.kind = none) : SumTailStep g mode left c left c

theorem sumTail_eq_ok {left : Formula} :
    sumTail g mode left c = .ok (x, c') ↔ SumTailStep g mode left c x c' := by
  constructor
  · intro h
    simp only [sumTail] at h
    have more (op : Operation) (hs : termSign? c.kind = some op)
        (h : (if mode.limitTarget && c.kindAt 1 = some (.closing .curly) then .ok (left, c)
          else do
            let (right, c) ← g.signedTerm mode c.next
            g.sumTail mode (.binary op left right) c) = Except.ok (x, c')) :
        SumTailStep g mode left c x c' := by
      split at h
      · next hm =>
        simp only [Bool.and_eq_true, decide_eq_true_eq] at hm
        obtain ⟨rfl, rfl⟩ : left = x ∧ c = c' := by simpa using h
        exact .side hs hm.1 hm.2
      · next hm =>
        simp only [bind_eq_ok, Prod.exists] at h
        obtain ⟨right, middle, hr, h⟩ := h
        exact .more hs (by simpa using hm) hr h
    split at h
    · next hk => exact more .add (by rw [hk]; rfl) h
    · next hk => exact more .sub (by rw [hk]; rfl) h
    · next h1 h2 =>
      obtain ⟨rfl, rfl⟩ : left = x ∧ c = c' := by simpa using h
      exact .done (termSign_eq_none.2 ⟨h1, h2⟩)
  · intro h
    cases h with
    | side sign target last =>
      obtain ⟨hk, rfl⟩ | ⟨hk, rfl⟩ := termSign_eq_some.1 sign <;>
        simp [sumTail, hk, target, last]
    | more sign inner follows more =>
      have hi : (mode.limitTarget && decide (c.kindAt 1 = some (.closing .curly))) = false := by
        simpa using inner
      obtain ⟨hk, rfl⟩ | ⟨hk, rfl⟩ := termSign_eq_some.1 sign <;>
        · simp only [sumTail, hk, hi, Bool.false_eq_true, if_false]
          exact bind_eq_ok.2 ⟨_, follows, more⟩
    | done unsigned =>
      have hk := termSign_eq_none.1 unsigned
      simp only [sumTail]
      split
      · next h => exact absurd h hk.1
      · next h => exact absurd h hk.2
      · rfl

inductive ArgumentsStep (g : Rules) (d : Delimiter) (c : Cursor) : List Formula → Cursor → Prop
  | more {x : Formula} {rest : List Formula} {middle after : Cursor}
      (first : g.sum .plain c = .ok (x, middle)) (comma : middle.kind = some .comma)
      (follows : g.arguments d middle.next = .ok (rest, after)) :
      ArgumentsStep g d c (x :: rest) after
  | last {x : Formula} {middle : Cursor} (first : g.sum .plain c = .ok (x, middle))
      (closed : middle.kind = some (.closing d)) : ArgumentsStep g d c [x] middle.next

theorem arguments_eq_ok {d : Delimiter} {xs : List Formula} :
    arguments g d c = .ok (xs, c') ↔ ArgumentsStep g d c xs c' := by
  constructor
  · intro h
    simp only [arguments, bind_eq_ok, Prod.exists] at h
    obtain ⟨y, middle, hy, h⟩ := h
    split at h
    · next hk =>
      simp only [bind_eq_ok, Prod.exists, pure_eq_ok, Prod.mk.injEq] at h
      obtain ⟨rest, after, hr, rfl, rfl⟩ := h
      exact .more hy hk hr
    · split at h
      · next hk =>
        obtain ⟨rfl, rfl⟩ : [y] = xs ∧ middle.next = c' := by simpa using h
        exact .last hy hk
      · simp at h
  · intro h
    cases h with
    | more first comma follows => simp [arguments, first, comma, follows]
    | last first closed => simp [arguments, first, closed]

inductive MemberStep (g : Rules) (c : Cursor) : Formula → Cursor → Prop
  | relation {r : Relation} {left right : Formula} {middle after : Cursor}
      (first : g.sum .plain c = .ok (left, middle)) (sign : middle.kind = some (.relation r))
      (second : g.sum .plain middle.next = .ok (right, after))
      (single : ∀ r, after.kind ≠ some (.relation r)) :
      MemberStep g c (.relation r left right) after
  | expression {x : Formula} {after : Cursor} (only : g.sum .plain c = .ok (x, after))
      (unrelated : ∀ r, after.kind ≠ some (.relation r)) : MemberStep g c x after

theorem member_eq_ok : member g c = .ok (x, c') ↔ MemberStep g c x c' := by
  constructor
  · intro h
    simp only [member, bind_eq_ok, Prod.exists] at h
    obtain ⟨left, middle, hl, h⟩ := h
    split at h
    · next r hk =>
      simp only [bind_eq_ok, Prod.exists] at h
      obtain ⟨right, after, hr, h⟩ := h
      split at h
      · simp at h
      · next hn =>
        obtain ⟨rfl, rfl⟩ : .relation r left right = x ∧ after = c' := by simpa using h
        exact .relation hl hk hr hn
    · next hn =>
      obtain ⟨rfl, rfl⟩ : left = x ∧ middle = c' := by simpa using h
      exact .expression hl hn
  · intro h
    cases h with
    | relation first sign second single =>
      simp only [member]
      refine bind_eq_ok.2 ⟨_, first, ?_⟩
      simp only [sign]
      refine bind_eq_ok.2 ⟨_, second, ?_⟩
      split
      · next r hk => exact absurd hk (single r)
      · rfl
    | expression only unrelated =>
      simp only [member]
      refine bind_eq_ok.2 ⟨_, only, ?_⟩
      split
      · next r hk => exact absurd hk (unrelated r)
      · rfl

theorem wholeMember_eq_ok : wholeMember g c = .ok x ↔
    ∃ after, member g c = .ok (x, after) ∧ after.tokens = [] := by
  constructor
  · intro h
    simp only [wholeMember, bind_eq_ok, Prod.exists] at h
    obtain ⟨y, after, hy, h⟩ := h
    split at h
    · next ht =>
      obtain rfl : y = x := by simpa using h
      exact ⟨after, hy, ht⟩
    · simp at h
  · rintro ⟨after, hm, ht⟩
    simp [wholeMember, hm, ht]

end AnswerKey.Grammar

namespace AnswerKey.Formula

theorem ofTokens_eq_ok {declared : List String} {tokens : List Token} {limit : Nat} {x : Formula} :
    ofTokens declared tokens limit = .ok x ↔
      ∃ last, Grammar.member (Grammar.rules declared
          (Grammar.sufficientDepth (Cursor.start tokens limit))) (Cursor.start tokens limit) =
        .ok (x, last) ∧ last.tokens = [] := by
  rw [← Grammar.wholeMember_eq_ok]
  unfold ofTokens
  simp only
  split
  · next y hy => simp [hy]
  · next e he => simp [he]
  · next he => simp [he]

end AnswerKey.Formula

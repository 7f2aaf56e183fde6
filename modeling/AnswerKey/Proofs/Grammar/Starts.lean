import AnswerKey.Proofs.Grammar.Depth

/-! Where readings start, and what stops them. A term starts with signs before a
factor. At the end of the tokens and at a closing brace nothing is added to what
has been read, so that a number before a closing brace is read alone. -/
namespace AnswerKey.Grammar

variable {g : Rules} {mode : Mode} {c c' : Cursor} {x : Formula} {e : Exponent}

theorem startsFactor_of_atom (h : atom g mode c = .ok (x, c')) :
    startsFactor .plain c = true := by
  cases atom_eq_ok.1 h with
  | @differential isPartial _ _ here =>
    cases isPartial <;> simp_all [startsFactor, differentialMark]
  | number here | symbolOrCall here | infinity here | floor here | ceil here | angle here
  | group here | bars here | application here | root here | fraction here | binomial here
  | sum here | product here | integral here | limit here => simp [startsFactor, here, Mode.plain]

theorem startsFactor_of_factor (h : factor g mode c = .ok (x, c')) :
    startsFactor .plain c = true := by
  obtain ⟨base, after, ha, -⟩ := factor_eq_ok.1 h
  exact startsFactor_of_atom ha

theorem startsFactor_of_term (h : term g mode c = .ok (x, c')) : startsFactor .plain c = true := by
  obtain ⟨left, after, hl, -⟩ := term_eq_ok.1 h
  exact startsFactor_of_factor hl

inductive StartsTerm : Cursor → Prop
  | sign {c : Cursor} (sign : isSign c.kind = true) (more : StartsTerm c.next) : StartsTerm c
  | factor {c : Cursor} (starts : startsFactor .plain c = true) : StartsTerm c

inductive StartsExponent : Cursor → Prop
  | minus {c : Cursor} (sign : c.kind = some .minus) (more : StartsExponent c.next) :
      StartsExponent c
  | marker {c : Cursor} {e : Exponent} (opened : c.kind = some (.opening .curly))
      (all : bracedMarker? c = some e) : StartsExponent c
  | braced {c : Cursor} (opened : c.kind = some (.opening .curly)) (inside : StartsTerm c.next) :
      StartsExponent c
  | other {c : Cursor} {k : Token.Kind} (here : c.kind = some k)
      (unsigned : isSign (some k) = false) (unopened : k ≠ .opening .curly)
      (unclosed : k ≠ .closing .curly) : StartsExponent c

theorem StartsTerm.kind (h : StartsTerm c) :
    ∃ k, c.kind = some k ∧ (isSign (some k) = true ∨ startsFactor .plain c = true) := by
  cases h with
  | sign sign =>
    cases hk : c.kind with
    | none => simp [hk, isSign] at sign
    | some k => exact ⟨k, rfl, .inl (hk ▸ sign)⟩
  | factor starts =>
    cases hk : c.kind with
    | none => simp [startsFactor, hk] at starts
    | some k => exact ⟨k, rfl, .inr starts⟩

theorem StartsTerm.kind_ne_none (h : StartsTerm c) : c.kind ≠ none := by
  obtain ⟨k, hk, -⟩ := h.kind
  simp [hk]

theorem StartsTerm.kind_ne {k : Token.Kind} (h : StartsTerm c) (hsign : isSign (some k) = false)
    (hfactor : ∀ c : Cursor, c.kind = some k → startsFactor .plain c = false) :
    c.kind ≠ some k := by
  intro here
  obtain ⟨k', hk', hs | hs⟩ := h.kind
  · obtain rfl : k = k' := Option.some.inj (here.symm.trans hk')
    simp [hs] at hsign
  · simp [hfactor c here] at hs

theorem StartsTerm.not_closing (h : StartsTerm c) (d : Delimiter) :
    c.kind ≠ some (.closing d) :=
  h.kind_ne rfl fun c hc => by simp [startsFactor, hc]

theorem StartsExponent.not_closing (h : StartsExponent c) : c.kind ≠ some (.closing .curly) := by
  cases h with
  | minus here | marker here | braced here => simp [here]
  | other here _ _ unclosed => simpa [here] using unclosed

theorem StartsExponent.sideFollows (h : StartsExponent c.next) :
    Grammar.sideFollows c = false := by
  have hkind := Cursor.kind_next (c := c)
  have hfirst := Cursor.kindAt_next (c := c) 1
  unfold Grammar.sideFollows
  cases h with
  | minus sign more =>
    have hclosed : c.kindAt 2 ≠ some (.closing .curly) := by
      rw [← hfirst, ← Cursor.kind_next]
      exact more.not_closing
    simp [← hkind, sign, hclosed]
  | marker opened all =>
    obtain ⟨-, ⟨hk | hk, -⟩ | ⟨hk, -⟩⟩ := bracedMarker_eq_some.1 all <;>
      simp [← hkind, ← hfirst, opened, hk, isSign]
  | braced opened inside =>
    have hclosed : isSign (c.kindAt 2) = true → c.kindAt 3 ≠ some (.closing .curly) := by
      intro hsign
      rw [← hfirst, ← Cursor.kind_next] at hsign
      have hlast : c.kindAt 3 = c.next.next.next.kind := by simp [Cursor.kind]
      rw [hlast]
      cases inside with
      | sign _ more => exact more.not_closing .curly
      | factor starts =>
        cases hk : c.next.next.kind with
        | none => simp [hk, isSign] at hsign
        | some k => cases k <;> simp_all [startsFactor, isSign]
    have hopening : isSign (some (.opening .curly)) = false := rfl
    by_cases hsign : isSign (c.kindAt 2) = true
    · simp [← hkind, opened, hopening, hclosed hsign]
    · simp [← hkind, opened, hopening, Bool.eq_false_iff.2 hsign]
  | other here unsigned unopened =>
    simp [← hkind, here, unsigned, unopened]

def Stops (c : Cursor) : Prop := c.kind = none ∨ c.kind = some (.closing .curly)

theorem Stops.termSign (h : Stops c) : termSign? c.kind = none := by
  obtain h | h := h <;> simp [h, termSign?]

theorem Stops.factorSign (h : Stops c) : factorSign? c.kind = none := by
  obtain h | h := h <;> simp [h, factorSign?]

theorem Stops.startsFactor (h : Stops c) : Grammar.startsFactor mode c = false := by
  obtain h | h := h <;> simp [Grammar.startsFactor, h]

/-- Where the readings of all rules start, and what stops them. -/
structure Rules.Starts (g : Rules) : Prop where
  sum {mode : Mode} {c c' : Cursor} {x : Formula} (h : g.sum mode c = .ok (x, c')) : StartsTerm c
  signedTerm {mode : Mode} {c c' : Cursor} {x : Formula}
    (h : g.signedTerm mode c = .ok (x, c')) : StartsTerm c
  exponent {c c' : Cursor} {e : Exponent} (h : g.exponent c = .ok (e, c')) : StartsExponent c
  sumTail {mode : Mode} {left x : Formula} {c c' : Cursor} (hc : Stops c)
    (h : g.sumTail mode left c = .ok (x, c')) : left = x ∧ c = c'
  termTail {mode : Mode} {left x : Formula} {c c' : Cursor} (hc : Stops c)
    (h : g.termTail mode left c = .ok (x, c')) : left = x ∧ c = c'
  factorTail {mode : Mode} {base x : Formula} {c c' : Cursor} (hc : Stops c)
    (h : g.factorTail mode base c = .ok (x, c')) : base = x ∧ c = c'
  signedTerm_number {mode : Mode} {c c' : Cursor} {x : Formula} (here : c.kind = some .number)
      (closed : c.next.kind = some (.closing .curly)) (h : g.signedTerm mode c = .ok (x, c')) :
    .number c.text = x ∧ c.next = c'
  sum_number {mode : Mode} {c c' : Cursor} {x : Formula} (here : c.kind = some .number)
      (closed : c.next.kind = some (.closing .curly)) (h : g.sum mode c = .ok (x, c')) :
    .number c.text = x ∧ c.next = c'

theorem starts_exhausted (declared : List String) : (Rules.exhausted declared).Starts where
  sum h := nomatch h
  signedTerm h := nomatch h
  exponent h := nomatch h
  sumTail _ h := nomatch h
  termTail _ h := nomatch h
  factorTail _ h := nomatch h
  signedTerm_number _ _ h := nomatch h
  sum_number _ _ h := nomatch h

namespace Rules.Starts

theorem ofSignedTerm (hg : g.Starts) (h : Grammar.signedTerm g mode c = .ok (x, c')) :
    StartsTerm c := by
  cases signedTerm_eq_ok.1 h with
  | minus sign follows => exact .sign (by simp [sign, isSign]) (hg.signedTerm follows)
  | plus sign follows => exact .sign (by simp [sign, isSign]) (hg.signedTerm follows)
  | bare _ _ here => exact .factor (startsFactor_of_term here)

theorem ofSum (hg : g.Starts) (h : Grammar.sum g mode c = .ok (x, c')) : StartsTerm c := by
  obtain ⟨left, after, hl, -⟩ := sum_eq_ok.1 h
  exact hg.signedTerm hl

theorem ofExponent (hg : g.Starts) (h : Grammar.exponent g c = .ok (e, c')) :
    StartsExponent c := by
  cases exponent_eq_ok.1 h with
  | marker opened all => exact .marker opened all
  | braced opened _ inside =>
    obtain ⟨last, hs, -⟩ := bracketed_eq_ok.1 inside
    exact .braced opened (hg.sum hs)
  | dagger mark =>
    rcases mark with here | here <;> exact .other here rfl (by simp) (by simp)
  | negated sign follows => exact .minus sign (hg.exponent follows)
  | digit taken => exact .other (Cursor.kind_of_takeDigit taken) rfl (by simp) (by simp)
  | prime here | symbol here | infinity here | group here | fraction here | binomial here
  | root here => exact .other here rfl (by simp) (by simp)

theorem ofSumTail {left : Formula} (hc : Stops c)
    (h : Grammar.sumTail g mode left c = .ok (x, c')) : left = x ∧ c = c' := by
  cases sumTail_eq_ok.1 h with
  | side sign | more sign => simp [hc.termSign] at sign
  | done => exact ⟨rfl, rfl⟩

theorem ofTermTail {left : Formula} (hc : Stops c)
    (h : Grammar.termTail g mode left c = .ok (x, c')) : left = x ∧ c = c' := by
  cases termTail_eq_ok.1 h with
  | explicit _ sign | bareArgument _ sign => simp [hc.factorSign] at sign
  | juxtaposed _ _ shape => simp [adjacency?, hc.startsFactor] at shape
  | differential | done => exact ⟨rfl, rfl⟩

theorem ofFactorTail {base : Formula} (hc : Stops c)
    (h : Grammar.factorTail g mode base c = .ok (x, c')) : base = x ∧ c = c' := by
  cases factorTail_eq_ok.1 h with
  | side mark | exponent mark | factorial mark | primed mark =>
    rcases hc with hc | hc <;> simp [mark] at hc
  | done => exact ⟨rfl, rfl⟩

theorem ofSignedTerm_number (hg : g.Starts) (here : c.kind = some .number)
    (closed : c.next.kind = some (.closing .curly))
    (h : Grammar.signedTerm g mode c = .ok (x, c')) : .number c.text = x ∧ c.next = c' := by
  cases signedTerm_eq_ok.1 h with
  | minus sign | plus sign => simp [here] at sign
  | bare _ _ term =>
    obtain ⟨left, after, hf, ht⟩ := term_eq_ok.1 term
    obtain ⟨base, middle, ha, hb⟩ := factor_eq_ok.1 hf
    obtain ⟨rfl, rfl⟩ : .number c.text = base ∧ c.next = middle := by simpa [atom, here] using ha
    obtain ⟨rfl, rfl⟩ := hg.factorTail (.inr closed) hb
    exact hg.termTail (.inr closed) ht

theorem ofSum_number (hg : g.Starts) (here : c.kind = some .number)
    (closed : c.next.kind = some (.closing .curly)) (h : Grammar.sum g mode c = .ok (x, c')) :
    .number c.text = x ∧ c.next = c' := by
  obtain ⟨left, after, hl, ht⟩ := sum_eq_ok.1 h
  obtain ⟨rfl, rfl⟩ := hg.signedTerm_number here closed hl
  exact hg.sumTail (.inr closed) ht

theorem deeper (hg : g.Starts) : g.deeper.Starts where
  sum := hg.ofSum
  signedTerm := hg.ofSignedTerm
  exponent := hg.ofExponent
  sumTail := ofSumTail
  termTail := ofTermTail
  factorTail := ofFactorTail
  signedTerm_number := hg.ofSignedTerm_number
  sum_number := hg.ofSum_number

end Rules.Starts

theorem starts_rules (declared : List String) (depth : Nat) : (rules declared depth).Starts := by
  induction depth with
  | zero => exact starts_exhausted declared
  | succ depth ih => exact ih.deeper

theorem starts_full (declared : List String) : (Rules.full declared).Starts := by
  have starts (c : Cursor) := starts_rules declared (sufficientDepth c)
  exact {
    sum := fun {_ c _ _} h => (starts c).sum h
    signedTerm := fun {_ c _ _} h => (starts c).signedTerm h
    exponent := fun {c _ _} h => (starts c).exponent h
    sumTail := fun {_ _ _ c _} hc h => (starts c).sumTail hc h
    termTail := fun {_ _ _ c _} hc h => (starts c).termTail hc h
    factorTail := fun {_ _ _ c _} hc h => (starts c).factorTail hc h
    signedTerm_number := fun {_ c _ _} hc h => (starts c).signedTerm_number hc h
    sum_number := fun {_ c _ _} hc h => (starts c).sum_number hc h }

/-! What stops readings ends them: the full rules add nothing there. -/

section Full

variable {declared : List String} {left base : Formula}

theorem factorTail_of_stops (hc : Stops c) :
    (Rules.full declared).factorTail mode base c = .ok (base, c) := by
  rw [Rules.factorTail_full]
  rcases hc with hc | hc <;>
    exact factorTail_eq_ok.2 (.done (by simp [hc]) (by simp [hc]) (by simp [hc]))

theorem termTail_of_stops (hc : Stops c) :
    (Rules.full declared).termTail mode left c = .ok (left, c) := by
  rw [Rules.termTail_full]
  refine termTail_eq_ok.2 ?_
  cases hd : left.lastFactor.isDifferential with
  | true => exact .differential hd
  | false => exact .done hd hc.factorSign (by simp [adjacency?, hc.startsFactor])

theorem sumTail_of_stops (hc : Stops c) :
    (Rules.full declared).sumTail mode left c = .ok (left, c) := by
  rw [Rules.sumTail_full]
  exact sumTail_eq_ok.2 (.done hc.termSign)

theorem sum_of_atom (h : atom (Rules.full declared) mode c = .ok (x, c')) (hc : Stops c') :
    (Rules.full declared).sum mode c = .ok (x, c') := by
  have unsigned : c.kind ≠ some .minus ∧ c.kind ≠ some .plus := by
    have starts := startsFactor_of_atom h
    constructor <;> intro hk <;> simp [startsFactor, hk] at starts
  have signed : (Rules.full declared).signedTerm mode c = .ok (x, c') := by
    rw [Rules.signedTerm_full]
    exact signedTerm_eq_ok.2 (.bare unsigned.1 unsigned.2 (term_eq_ok.2
      ⟨x, c', factor_eq_ok.2 ⟨x, c', h, factorTail_of_stops hc⟩, termTail_of_stops hc⟩))
  rw [Rules.sum_full]
  exact sum_eq_ok.2 ⟨x, c', signed, sumTail_of_stops hc⟩

theorem sum_number_full (here : c.kind = some .number)
    (closed : c.next.kind = some (.closing .curly)) :
    (Rules.full declared).sum mode c = .ok (.number c.text, c.next) :=
  sum_of_atom (atom_eq_ok.2 (.number here)) (.inr closed)

end Full

end AnswerKey.Grammar

import AnswerKey.Proofs.Grammar.Steps.Term

/-! The shape of an implicit product, chosen from one token before the right
factor is read, fits the factors that it joins in the end. -/
namespace AnswerKey

namespace Formula

/-- A factor without the powers, daggers, primes and factorial signs behind it. -/
def stem : Formula → Formula
  | power b _ => b.stem
  | dagger x | primed x | factorial x => x.stem
  | x => x

def isGroupOrName : Formula → Bool
  | group _ | symbol _ | call _ _ => true
  | _ => false

def isCompound : Formula → Bool
  | fraction _ _ | binomial _ _ | aggregate _ _ _ _ _ | integral _ _ _ | limit _ _ _ _ => true
  | x => x.isApplication

/-- The shapes in which a factor `last` multiplies a factor `next` that is no
differential. A factor that is not listed multiplies none. -/
def Suits (last : Formula) (shape : Adjacency) (next : Formula) : Prop :=
  match last with
  | number _ | symbol _ | infinity => shape = .numberOrSymbol
  | fraction _ _ | binomial _ _ => shape = .fraction
  | power _ _ => shape = .power
  | group _ => shape = .groups ∧ next.isGroupOrName ∨ shape = .groupFunction ∧ next.isCompound
  | apply _ _ true | call _ _ | root _ _ =>
    shape = .functions ∧ next.isApplication ∨ shape = .delimitedFunction
  | apply _ _ false | powered _ _ _ =>
    shape = .functions ∧ next.isApplication ∨ shape = .bareFunction
  | _ => False

theorem Suits.ne_differential {last next : Formula} {shape : Adjacency}
    (h : last.Suits shape next) : shape ≠ .differential := by
  rintro rfl
  cases last with
  | apply _ _ delimited => cases delimited <;> simp [Suits] at h
  | _ => simp [Suits] at h

end Formula

/-- Whether an atom that starts with a token of this kind may be this formula. -/
def Token.Kind.begins : Token.Kind → Formula → Bool
  | .number, .number _ | .infinity, .infinity => true
  | .symbol, .symbol _ | .symbol, .call _ _ => true
  | .frac, .fraction _ _ | .binom, .binomial _ _ => true
  | .sum, .aggregate _ _ _ _ _ | .prod, .aggregate _ _ _ _ _ => true
  | .int, .integral _ _ _ | .lim, .limit _ _ _ _ => true
  | .differential, .differential _ _ | .partialSign, .differential _ _ => true
  | .opening .floor, x | .opening .ceil, x | .opening .angle, x => x.isApplication
  | .opening _, .group _ => true
  | .pipe, x | .function _, x | .sqrt, x => x.isApplication
  | _, _ => false

namespace Grammar

variable {g : Rules} {mode : Mode} {c c' : Cursor} {x last : Formula} {k : Token.Kind}
  {shape : Adjacency} {declared : List String}

theorem isApplication_applied (f : Builtin) (power base : Option Formula) (args : List Formula)
    (delimited : Bool) : (applied f power base args delimited).isApplication = true := by
  cases power <;> rfl

theorem begins_of_atom (h : atom g mode c = .ok (x, c')) :
    ∃ k, c.kind = some k ∧ k.begins x = true := by
  cases atom_eq_ok.1 h with
  | number here | infinity here | floor here _ | ceil here _ => exact ⟨_, here, rfl⟩
  | symbolOrCall here read =>
    cases symbolOrCall_eq_ok.1 read with
    | call | symbol => exact ⟨_, here, rfl⟩
  | angle here inside =>
    cases angle_eq_ok.1 inside with
    | innerProduct | bra => exact ⟨_, here, rfl⟩
  | @group d _ _ here plain inside =>
    obtain ⟨inner, -, rfl⟩ := group_eq_ok.1 inside
    exact ⟨_, here, by cases d <;> simp_all [Token.Kind.begins]⟩
  | bars here _ inside =>
    cases bars_eq_ok.1 inside with
    | absolute | ket => exact ⟨_, here, rfl⟩
  | application here read =>
    obtain ⟨base, _, f, power, _, args, delimited, -, -, -, rfl⟩ := application_eq_ok.1 read
    exact ⟨_, here, isApplication_applied f power base args delimited⟩
  | root here read =>
    cases root_eq_ok.1 read with
    | indexed | plain => exact ⟨_, here, rfl⟩
  | fraction here read =>
    obtain ⟨_, _, _, -, -, rfl⟩ := fraction_eq_ok.1 read
    exact ⟨_, here, rfl⟩
  | binomial here read =>
    obtain ⟨_, _, _, -, -, rfl⟩ := binomial_eq_ok.1 read
    exact ⟨_, here, rfl⟩
  | sum here read | product here read =>
    obtain ⟨_, _, _, _, _, _, _, -, -, -, rfl⟩ := aggregate_eq_ok.1 read
    exact ⟨_, here, rfl⟩
  | integral here read =>
    obtain ⟨_, _, _, _, _, _, -, -, -, rfl⟩ := integral_eq_ok.1 read
    exact ⟨_, here, rfl⟩
  | limit here read =>
    obtain ⟨_, _, _, _, _, _, _, -, -, -, -, -, -, -, -, rfl⟩ := limit_eq_ok.1 read
    exact ⟨_, here, rfl⟩
  | @differential isPartial _ _ here read =>
    cases differential_eq_ok.1 read with
    | named | bare => exact ⟨_, here, by cases isPartial <;> rfl⟩

theorem isDifferential_of_begins (h : k.begins x = true) :
    x.isDifferential = true ↔ k = .differential ∨ k = .partialSign := by
  cases k with
  | opening d => cases d <;> cases x <;> simp_all [Token.Kind.begins, Formula.isApplication,
      Formula.isDifferential]
  | _ => cases x <;> simp_all [Token.Kind.begins, Formula.isApplication, Formula.isDifferential]

/-- A name before a parenthesis that may be called is called: it has no subscript,
as that would stand between the two. -/
theorem isApplication_of_symbol (hk : c.kind = some .symbol)
    (hs : startsApplication g.declared mode c = true) (h : symbolOrCall g c = .ok (x, c')) :
    x.isApplication = true := by
  simp only [startsApplication, hk, Bool.and_eq_true, decide_eq_true_eq, ← Cursor.kind_next] at hs
  cases symbolOrCall_eq_ok.1 h with
  | call => rfl
  | symbol named other =>
    cases symbolName_eq_ok.1 named with
    | plain => exact absurd hs other
    | subscripted _ mark _ =>
      rw [mark] at hs
      cases hs.1

theorem isApplication_of_startsApplication (hs : startsApplication g.declared mode c = true)
    (h : atom g mode c = .ok (x, c')) : x.isApplication = true := by
  obtain ⟨k, hk, hb⟩ := begins_of_atom h
  by_cases hsymbol : k = .symbol
  · subst hsymbol
    exact isApplication_of_symbol hk hs (by simpa only [atom, hk] using h)
  · simp only [startsApplication, hk] at hs
    cases k with
    | opening d => cases d <;> simp_all [Token.Kind.begins]
    | _ => simp_all [Token.Kind.begins]

theorem suits_of_neighbours {isApplication : Bool}
    (hn : neighbours last isApplication k = some shape) (hb : k.begins x = true)
    (happ : isApplication = true → x.isApplication = true) : last.Suits shape x := by
  have hcompound : x.isApplication = true → x.isCompound = true := by
    intro h
    cases x <;> simp_all [Formula.isApplication, Formula.isCompound]
  cases last with
  | group inner =>
    simp only [neighbours] at hn
    split at hn
    · next hgroup =>
      refine .inl ⟨(Option.some.inj hn).symm, ?_⟩
      simp only [Bool.or_eq_true, Bool.and_eq_true, decide_eq_true_eq] at hgroup
      obtain ((rfl | rfl) | rfl) | ⟨rfl, -⟩ := hgroup <;>
        cases x <;> simp_all [Token.Kind.begins, Formula.isGroupOrName]
    · split at hn
      · next hfunction =>
        refine .inr ⟨(Option.some.inj hn).symm, ?_⟩
        simp only [Bool.or_eq_true, decide_eq_true_eq] at hfunction
        obtain (((((h | rfl) | rfl) | rfl) | rfl) | rfl) | rfl := hfunction
        · exact hcompound (happ h)
        all_goals cases x <;> simp_all [Token.Kind.begins, Formula.isCompound]
      · cases hn
  | apply f args delimited =>
    cases isApplication <;> cases delimited <;>
      simp_all [neighbours, Formula.Suits, Formula.isApplication, Formula.isDelimitedApplication]
  | call | root | powered =>
    cases isApplication <;>
      simp_all [neighbours, Formula.Suits, Formula.isApplication, Formula.isDelimitedApplication]
  | _ => simp_all [neighbours, Formula.Suits, Formula.isApplication]

theorem adjacency_eq_some (hk : c.kind = some k)
    (h : adjacency? declared last mode c = some shape) :
    (k = .differential ∨ k = .partialSign) ∧ shape = .differential ∨
      ¬(k = .differential ∨ k = .partialSign) ∧
        neighbours last (startsApplication declared mode c) k = some shape := by
  unfold adjacency? at h
  split at h
  · split at h
    · cases h
    · next hd =>
      obtain rfl : k = .differential := Option.some.inj (hk.symm.trans hd)
      split at h
      · cases h
      · exact .inl ⟨.inl rfl, (Option.some.inj h).symm⟩
    · next hp =>
      obtain rfl : k = .partialSign := Option.some.inj (hk.symm.trans hp)
      split at h
      · cases h
      · exact .inl ⟨.inr rfl, (Option.some.inj h).symm⟩
    · next k' hd hp hk' =>
      obtain rfl : k = k' := Option.some.inj (hk.symm.trans hk')
      simp only at h
      split at h
      · cases h
      · exact .inr ⟨not_or.2 ⟨hd, hp⟩, h⟩
  · cases h

/-- The shape is that of a differential just before a differential, and otherwise
one in which the factor before multiplies the one that is read then. -/
theorem suits_of_adjacency (hs : adjacency? g.declared last mode c = some shape)
    (h : atom g mode c = .ok (x, c')) :
    (shape = .differential ↔ x.isDifferential = true) ∧
      (shape ≠ .differential → last.Suits shape x) := by
  obtain ⟨k, hk, hb⟩ := begins_of_atom h
  rw [isDifferential_of_begins hb]
  rcases adjacency_eq_some hk hs with ⟨hmark, rfl⟩ | ⟨hmark, hn⟩
  · exact ⟨⟨fun _ => hmark, fun _ => rfl⟩, fun hne => absurd rfl hne⟩
  · have hsuits : last.Suits shape x :=
      suits_of_neighbours hn hb fun happ => isApplication_of_startsApplication happ h
    exact ⟨⟨fun h => absurd h hsuits.ne_differential, fun h => absurd h hmark⟩, fun _ => hsuits⟩

end Grammar

end AnswerKey

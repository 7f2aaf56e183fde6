import AnswerKey.Proofs.Grammar.Calls
import AnswerKey.Proofs.Grammar.Reading

/-! The depth of readings. From a call to the calls within it the depth that is wanted
falls, by one level of rules where the recursion is tied, so that any depth that
suffices for a cursor reads the same there: the rules with all the depth that they want
are rules over themselves. -/
namespace AnswerKey

namespace Grammar

namespace Rule

def rank : Rule → Nat
  | group => 7
  | member | bracketed | arguments | bars | angle | application | integral => 6
  | sum | functionArguments | aggregate | integralBody => 5
  | signedTerm => 4
  | term | termTail | signedFactor => 3
  | factor => 2
  | atom | root | fraction | binomial | integralLimit => 1
  | _ => 0

/-- It falls from each call to the calls within it. -/
def weight (r : Rule) (c : Cursor) : Nat := 8 * r.size c + r.rank

/-- How many levels of rules a function and its callees may go down before anything is
taken: arguments call a sum, and a sum calls a signed term. -/
def level : Rule → Nat
  | arguments => 3
  | member | sum | bracketed | group | bars | angle => 2
  | sumTail | signedTerm | termTail | signedFactor | factorTail | exponent
  | functionArguments | application | aggregate | integralBody | integral => 1
  | _ => 0

def depth (r : Rule) (c : Cursor) : Nat := 3 * r.size c + r.level

variable {r s : Rule} {c d : Cursor}

theorem rank_le (r : Rule) : r.rank ≤ 7 := by
  cases r <;> decide

theorem rank_lt_of_callee (r : Rule) : ∀ s ∈ r.callees, s.rank < r.rank := by
  cases r <;> decide

theorem level_le (r : Rule) : r.level ≤ 3 := by
  cases r <;> decide

theorem isTied_le_level (r : Rule) : r.isTied.toNat ≤ r.level := by
  cases r <;> decide

theorem level_le_of_callee (r : Rule) : ∀ s ∈ r.callees, s.level + r.isTied.toNat ≤ r.level := by
  cases r <;> decide

theorem weight_lt_of_within (h : Within (r.size c) r.callees s d) : s.weight d < r.weight c := by
  have hsize := s.size_le d
  have hrank := s.rank_le
  obtain ⟨hd, smaller | called⟩ := h
  · simp only [weight]
    omega
  · have := r.rank_lt_of_callee s called
    simp only [weight]
    omega

theorem depth_le_of_within (h : Within (r.size c) r.callees s d) :
    s.depth d + r.isTied.toNat ≤ r.depth c := by
  have hsize := s.size_le d
  have hlevel := s.level_le
  have htied := r.isTied_le_level
  obtain ⟨hd, smaller | called⟩ := h
  · simp only [depth]
    omega
  · have := r.level_le_of_callee s called
    simp only [depth]
    omega

theorem depth_pos (tied : r.isTied = true) : 0 < r.depth c := by
  have hlevel := r.isTied_le_level
  rw [tied, Bool.toNat_true] at hlevel
  simp only [depth]
  omega

theorem depth_le_sufficient (r : Rule) (c : Cursor) : r.depth c ≤ sufficientDepth c := by
  have hsize := r.size_le c
  have hlevel := r.level_le
  simp only [depth, sufficientDepth]
  omega

end Rule

namespace Rules

variable {declared : List String} {n m : Nat}

/-- Depths that suffice for a call give it the same outcome. -/
theorem settled_rules (r : Rule) (a : r.Argument) (c : Cursor) (hn : r.depth c ≤ n)
    (hm : r.depth c ≤ m) :
    Settled (r.room c) ((rules declared n).answers r a c) ((rules declared m).answers r a c) := by
  -- The weight falls along every call; the depth only falls where a rule is tied.
  induction hw : r.weight c using Nat.strongRecOn generalizing r a c n m with
  | ind w ih =>
    subst hw
    have agree {n m : Nat} (hn : r.depth c ≤ n + r.isTied.toNat)
        (hm : r.depth c ≤ m + r.isTied.toNat) :
        AgreeOn (r.size c) r.callees (rules declared n).answers (rules declared m).answers := by
      intro s b d within
      have hdepth := Rule.depth_le_of_within within
      exact ih _ (Rule.weight_lt_of_within within) s b d (by omega) (by omega) rfl
    cases tied : r.isTied with
    | true =>
      have hpos := Rule.depth_pos (c := c) tied
      obtain ⟨n, rfl⟩ : ∃ k, n = k + 1 := ⟨n - 1, by omega⟩
      obtain ⟨m, rfl⟩ : ∃ k, m = k + 1 := ⟨m - 1, by omega⟩
      rw [rules, rules, answers_deeper _ tied, answers_deeper _ tied, declared_rules,
        declared_rules]
      exact settled_step declared r a c (agree (by simpa [tied] using hn) (by simpa [tied] using hm))
    | false =>
      rw [answers_eq_step _ tied, answers_eq_step _ tied, declared_rules, declared_rules]
      exact settled_step declared r a c (agree (by simpa [tied] using hn) (by simpa [tied] using hm))

/-- The rules that take for each cursor the depth that suffices for it. -/
def full (declared : List String) : Rules where
  declared := declared
  sum mode c := (rules declared (sufficientDepth c)).sum mode c
  sumTail mode left c := (rules declared (sufficientDepth c)).sumTail mode left c
  signedTerm mode c := (rules declared (sufficientDepth c)).signedTerm mode c
  termTail mode left c := (rules declared (sufficientDepth c)).termTail mode left c
  signedFactor mode c := (rules declared (sufficientDepth c)).signedFactor mode c
  factorTail mode base c := (rules declared (sufficientDepth c)).factorTail mode base c
  exponent c := (rules declared (sufficientDepth c)).exponent c
  arguments d c := (rules declared (sufficientDepth c)).arguments d c

@[simp] theorem declared_full (declared : List String) : (full declared).declared = declared := rfl

theorem sound_full (declared : List String) : (full declared).Sound := by
  have sound (c : Cursor) := sound_rules declared (sufficientDepth c)
  exact {
    sum := fun {_ c _ _} h => by simpa using (sound c).sum h
    sumTail := fun {_ _ _ c _} h hl => by simpa using (sound c).sumTail h (by simpa using hl)
    signedTerm := fun {_ c _ _} h => by simpa using (sound c).signedTerm h
    termTail := fun {_ _ _ c _} h hl => by simpa using (sound c).termTail h (by simpa using hl)
    signedFactor := fun {_ c _ _} h => by simpa using (sound c).signedFactor h
    factorTail := fun {_ _ _ c _} h hb => by simpa using (sound c).factorTail h (by simpa using hb)
    exponent := fun {c _ _} h => by simpa using (sound c).exponent h
    arguments := fun {_ c _ _} h => by simpa using (sound c).arguments h }

theorem answers_full {r : Rule} (tied : r.isTied = true) (a : r.Argument) (c : Cursor) :
    (full declared).answers r a c = (rules declared (sufficientDepth c)).answers r a c := by
  cases r with
  | sum | sumTail | signedTerm | termTail | signedFactor | factorTail | exponent | arguments => rfl
  | _ => cases tied

theorem settled_full (r : Rule) (a : r.Argument) (c : Cursor) (hn : r.depth c ≤ n) :
    Settled (r.room c) ((full declared).answers r a c) ((rules declared n).answers r a c) := by
  induction hw : r.weight c using Nat.strongRecOn generalizing r a c with
  | ind w ih =>
    subst hw
    cases tied : r.isTied with
    | true =>
      rw [answers_full tied]
      exact settled_rules r a c (r.depth_le_sufficient c) hn
    | false =>
      rw [answers_eq_step _ tied, answers_eq_step _ tied, declared_rules, declared_full]
      refine settled_step declared r a c fun s b d within => ?_
      have hdepth := Rule.depth_le_of_within within
      exact ih _ (Rule.weight_lt_of_within within) s b d (by omega) rfl

theorem full_deeper (declared : List String) : (full declared).deeper = full declared := by
  have same {r : Rule} (tied : r.isTied = true) (a : r.Argument) (c : Cursor) :
      (full declared).deeper.answers r a c = (full declared).answers r a c := by
    have agree : AgreeOn (r.size c) r.callees (full declared).answers
        (rules declared (3 * c.size + 2)).answers := by
      intro s b d within
      have hdepth := Rule.depth_le_of_within within
      have hsufficient := r.depth_le_sufficient c
      rw [tied, Bool.toNat_true] at hdepth
      simp only [sufficientDepth] at hsufficient
      exact settled_full s b d (by omega)
    -- One level above a depth that suffices for the callees.
    have lower := answers_deeper (rules declared (3 * c.size + 2)) tied
    rw [declared_rules] at lower
    rw [answers_full tied, answers_deeper _ tied, declared_full]
    change _ = (rules declared (3 * c.size + 2)).deeper.answers r a c
    rw [lower]
    exact (settled_step declared r a c agree).eq
  unfold deeper full
  congr 1
  · funext mode c
    exact same (r := .sum) rfl mode c
  · funext mode left c
    exact same (r := .sumTail) rfl (mode, left) c
  · funext mode c
    exact same (r := .signedTerm) rfl mode c
  · funext mode left c
    exact same (r := .termTail) rfl (mode, left) c
  · funext mode c
    exact same (r := .signedFactor) rfl mode c
  · funext mode base c
    exact same (r := .factorTail) rfl (mode, base) c
  · funext c
    exact same (r := .exponent) rfl () c
  · funext d c
    exact same (r := .arguments) rfl d c

theorem member_full {c : Cursor} (hn : sufficientDepth c ≤ n) :
    member (rules declared n) c = member (full declared) c :=
  (settled_full .member () c (Nat.le_trans (Rule.depth_le_sufficient _ c) hn)).eq.symm

variable (declared)

theorem sum_full : (full declared).sum = Grammar.sum (full declared) :=
  congrArg sum (full_deeper declared).symm

theorem sumTail_full : (full declared).sumTail = Grammar.sumTail (full declared) :=
  congrArg sumTail (full_deeper declared).symm

theorem signedTerm_full : (full declared).signedTerm = Grammar.signedTerm (full declared) :=
  congrArg signedTerm (full_deeper declared).symm

theorem termTail_full : (full declared).termTail = Grammar.termTail (full declared) :=
  congrArg termTail (full_deeper declared).symm

theorem signedFactor_full : (full declared).signedFactor = Grammar.signedFactor (full declared) :=
  congrArg signedFactor (full_deeper declared).symm

theorem factorTail_full : (full declared).factorTail = Grammar.factorTail (full declared) :=
  congrArg factorTail (full_deeper declared).symm

theorem exponent_full : (full declared).exponent = Grammar.exponent (full declared) :=
  congrArg exponent (full_deeper declared).symm

theorem arguments_full : (full declared).arguments = Grammar.arguments (full declared) :=
  congrArg arguments (full_deeper declared).symm

end Rules

end Grammar

theorem Formula.ofTokens_eq_ok_full {declared : List String} {tokens : List Token} {limit : Nat}
    {x : Formula} : ofTokens declared tokens limit = .ok x ↔
      ∃ last, Grammar.member (Grammar.Rules.full declared) (Cursor.start tokens limit) =
        .ok (x, last) ∧ last.tokens = [] := by
  rw [ofTokens_eq_ok, Grammar.Rules.member_full (Nat.le_refl _)]

end AnswerKey

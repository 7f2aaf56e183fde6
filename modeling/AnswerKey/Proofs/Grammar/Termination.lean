import AnswerKey.Proofs.Grammar.Depth
import Mathlib.Data.List.Chain
import Mathlib.Logic.Relation

/-! Every reading ends, and no deeper than its tokens and digits allow. -/
namespace AnswerKey

def Token.extent (tokens : List Token) : Nat :=
  tokens.length + ((tokens.filter (·.kind = .number)).flatMap (·.text.toList)).length

theorem Cursor.size_eq_extent (c : Cursor) : c.size = Token.extent c.tokens := by
  obtain ⟨tokens, stop, limit⟩ := c
  simp only [size]
  induction tokens with
  | nil => rfl
  | cons t rest ih =>
    rw [List.foldr_cons, ih]
    simp only [Token.extent, List.length_cons, List.filter_cons]
    split
    · next number =>
      simp only [number, decide_true, if_true, List.flatMap_cons, List.length_append,
        String.length_toList]
      omega
    · next other =>
      simp only [other, decide_false, Bool.false_eq_true, if_false]
      omega

namespace Grammar

variable {declared : List String}

/-- A group that has all of its cursor to read stands at the end of the tokens. -/
theorem Rule.size_eq_of_size_eq (r : Rule) {c d : Cursor} (same : c.size = d.size)
    (whole : r.size d = d.size) : r.size c = c.size := by
  cases r with
  | group =>
    simp only [size] at whole ⊢
    cases hd : d.kind with
    | some k => exact absurd whole (Nat.ne_of_lt (Cursor.size_next_lt hd))
    | none =>
      have hempty : d.tokens = [] := by simpa [Cursor.kind, Cursor.kindAt] using hd
      have hzero : d.size = 0 := by simp [Cursor.size, hempty]
      have hnext := Cursor.size_next_le c
      omega
  | _ => rfl

def fullAnswers (declared : List String) : Answers := (Rules.full declared).answers

theorem settled_fullAnswers (r : Rule) (a : r.Argument) (c : Cursor) :
    Settled (r.room c) (fullAnswers declared r a c) (fullAnswers declared r a c) :=
  (Rules.settled_full r a c (Nat.le_refl _)).left

open Classical in
noncomputable def Answers.without (k : Answers) (p : Call) : Answers := fun r a c =>
  if (⟨r, a, c⟩ : Call) = p then .error .exhausted else k r a c

theorem Answers.without_self {k : Answers} (p : Call) :
    k.without p p.rule p.argument p.cursor = .error .exhausted := if_pos rfl

theorem Answers.without_of_ne {k : Answers} {p : Call} {r : Rule} {a : r.Argument} {c : Cursor}
    (h : (⟨r, a, c⟩ : Call) ≠ p) : k.without p r a c = k r a c := if_neg h

namespace Call

def weight (q : Call) : Nat := q.rule.weight q.cursor

/-- Among the calls that `q` makes itself is `p`: if `p` alone stays without an answer,
so does `q`. No function goes on after a call without an answer, so none that is made
is missed. -/
def Makes (declared : List String) (q p : Call) : Prop :=
  ((fullAnswers declared).without p).step declared q.rule q.argument q.cursor =
    .error .exhausted

variable {q p : Call}

theorem within_of_makes (h : Makes declared q p) :
    Within (q.rule.size q.cursor) q.rule.callees p.rule p.cursor := by
  by_contra outside
  have agree : AgreeOn (q.rule.size q.cursor) q.rule.callees (fullAnswers declared)
      ((fullAnswers declared).without p) := by
    intro r a c within
    have other : (⟨r, a, c⟩ : Call) ≠ p := by
      rintro rfl
      exact outside within
    rw [Answers.without_of_ne other]
    exact settled_fullAnswers r a c
  exact (settled_step declared q.rule q.argument q.cursor agree).ne_exhausted h

theorem weight_lt_of_makes (h : Makes declared q p) : p.weight < q.weight :=
  Rule.weight_lt_of_within (within_of_makes h)

/-- Calls inside a call are lighter, and begin where it has left to read. -/
theorem lighter_of_transGen (h : Relation.TransGen (Makes declared) q p) :
    p.weight < q.weight ∧ p.cursor.size ≤ q.rule.size q.cursor := by
  induction h with
  | single h => exact ⟨weight_lt_of_makes h, (within_of_makes h).1⟩
  | @tail middle p _ h ih =>
    have hmiddle := middle.rule.size_le middle.cursor
    have hp := (within_of_makes h).1
    exact ⟨Nat.lt_trans (weight_lt_of_makes h) ih.1, by omega⟩

theorem size_lt_of_transGen (h : Relation.TransGen (Makes declared) q p)
    (same : p.rule = q.rule) : p.cursor.size < q.cursor.size := by
  obtain ⟨lighter, begins⟩ := lighter_of_transGen h
  have hq := q.rule.size_le q.cursor
  by_contra larger
  have hp := q.rule.size_eq_of_size_eq (c := p.cursor) (d := q.cursor) (by omega) (by omega)
  simp only [weight, Rule.weight, same] at lighter
  omega

/-- Calls open one inside another are no more than the weight of the outermost. -/
theorem length_le_of_isChain {calls : List Call} (h : (q :: calls).IsChain (Makes declared)) :
    calls.length ≤ q.weight := by
  induction calls generalizing q with
  | nil => exact Nat.zero_le _
  | cons p rest ih =>
    obtain ⟨made, chain⟩ := List.isChain_cons_cons.1 h
    exact Nat.lt_of_le_of_lt (ih chain) (weight_lt_of_makes made)

end Call

theorem wholeMember_full {c : Cursor} {depth : Nat} (h : sufficientDepth c ≤ depth) :
    wholeMember (rules declared depth) c = wholeMember (Rules.full declared) c := by
  simp only [wholeMember, Rules.member_full h]

theorem wholeMember_full_ne_exhausted (declared : List String) (c : Cursor) :
    wholeMember (Rules.full declared) c ≠ .error .exhausted := by
  have outcome : Settled (c.size + 1) (member (Rules.full declared) c)
      (member (Rules.full declared) c) := settled_fullAnswers .member () c
  intro h
  obtain failed | ⟨⟨x, last⟩, -, rest⟩ := bind_eq_error.1 h
  · exact outcome.ne_exhausted failed
  · dsimp only at rest
    split at rest <;> cases rest

/-- A sum in round brackets is read inside the sum that they stand in. -/
theorem transGen_sum_of_round {mode : Mode} {c : Cursor} (here : c.kind = some (.opening .round)) :
    Relation.TransGen (Call.Makes declared) ⟨.sum, mode, c⟩ ⟨.sum, .plain, c.next⟩ := by
  have unanswered (p : Call) := Answers.without_self (k := fullAnswers declared) p
  have signedTerm : Call.Makes declared ⟨.sum, mode, c⟩ ⟨.signedTerm, mode, c⟩ :=
    congrArg (· >>= _) (unanswered ⟨.signedTerm, mode, c⟩)
  have term : Call.Makes declared ⟨.signedTerm, mode, c⟩ ⟨.term, mode, c⟩ := by
    simp only [Call.Makes, Answers.step, Answers.signedTerm, here]
    exact unanswered ⟨.term, mode, c⟩
  have factor : Call.Makes declared ⟨.term, mode, c⟩ ⟨.factor, mode, c⟩ :=
    congrArg (· >>= _) (unanswered ⟨.factor, mode, c⟩)
  have atom : Call.Makes declared ⟨.factor, mode, c⟩ ⟨.atom, mode, c⟩ :=
    congrArg (· >>= _) (unanswered ⟨.atom, mode, c⟩)
  have group : Call.Makes declared ⟨.atom, mode, c⟩ ⟨.group, .round, c⟩ := by
    simp only [Call.Makes, Answers.step, Answers.atom, here]
    exact unanswered ⟨.group, .round, c⟩
  have bracketed : Call.Makes declared ⟨.group, .round, c⟩ ⟨.bracketed, .round, c.next⟩ :=
    congrArg (· >>= _) (unanswered ⟨.bracketed, .round, c.next⟩)
  have sum : Call.Makes declared ⟨.bracketed, .round, c.next⟩ ⟨.sum, .plain, c.next⟩ :=
    congrArg (· >>= _) (unanswered ⟨.sum, .plain, c.next⟩)
  exact .head signedTerm <| .head term <| .head factor <| .head atom <| .head group <|
    .head bracketed <| .single sum

end Grammar

open Grammar

/-- Every token list is read to its end, as a formula or up to a syntax error, with a
depth that is linear in the tokens and the characters of numbers; more depth changes
nothing. Before a function is called again inside its own call, tokens or digits are
taken, and no more calls than this depth allows are open at once. -/
theorem Formula.ofTokens_linear_depth (declared : List String) (tokens : List Token)
    (limit : Nat) :
    (∀ depth, 3 * (Token.extent tokens + 1) ≤ depth →
      wholeMember (rules declared depth) (Cursor.start tokens limit) =
        (ofTokens declared tokens limit).mapError .refused) ∧
    (∀ q p, Relation.TransGen (Call.Makes declared) q p → p.rule = q.rule →
      Token.extent p.cursor.tokens < Token.extent q.cursor.tokens) ∧
    ∀ calls, (⟨.member, (), Cursor.start tokens limit⟩ :: calls).IsChain (Call.Makes declared) →
      calls.length ≤ 8 * (Token.extent tokens + 1) := by
  have hsize : (Cursor.start tokens limit).size = Token.extent tokens := Cursor.size_eq_extent _
  refine ⟨fun depth enough => ?_, fun q p nested same => ?_, fun calls chain => ?_⟩
  · rw [wholeMember_full (by rwa [sufficientDepth, hsize])]
    have ended := wholeMember_full_ne_exhausted declared (Cursor.start tokens limit)
    simp only [ofTokens, wholeMember_full (Nat.le_refl _)]
    cases hm : wholeMember (Rules.full declared) (Cursor.start tokens limit) with
    | ok x => rfl
    | error e =>
      cases e with
      | refused e => rfl
      | exhausted => exact absurd hm ended
  · rw [← Cursor.size_eq_extent, ← Cursor.size_eq_extent]
    exact Call.size_lt_of_transGen nested same
  · have hlength := Call.length_le_of_isChain chain
    simp only [Call.weight, Rule.weight, Rule.size, Rule.rank, hsize] at hlength
    omega

/-- The brackets hold a sum within a sum, and behind its first digit the exponent
leaves the other one to the factor that it stands on. -/
theorem Formula.ofTokens_linear_depth_split_number :
    let tokens : List Token := [⟨.opening .round, "(", 0, 1⟩, ⟨.symbol, "x", 1, 2⟩,
      ⟨.caret, "^", 2, 3⟩, ⟨.number, "12", 3, 5⟩, ⟨.closing .round, ")", 5, 6⟩]
    let start := Cursor.start tokens 6
    let power := Formula.power (.symbol "x") (.number "1")
    let raised : Call := ⟨.factorTail, (.plain, .symbol "x"), start.next.next⟩
    let left : Call := ⟨.factorTail, (.plain, power),
      ⟨[⟨.number, "2", 4, 5⟩, ⟨.closing .round, ")", 5, 6⟩], some 3, 6⟩⟩
    wholeMember (rules ["x"] 24) start = .ok (.group (.juxtaposed .power power (.number "2"))) ∧
      Relation.TransGen (Call.Makes ["x"]) ⟨.sum, .plain, start⟩ ⟨.sum, .plain, start.next⟩ ∧
      Token.extent start.next.tokens < Token.extent start.tokens ∧
      Call.Makes ["x"] raised left ∧
      Token.extent left.cursor.tokens < Token.extent raised.cursor.tokens := by
  intro tokens start power raised left
  obtain ⟨read, descends, -⟩ := ofTokens_linear_depth ["x"] tokens 6
  have nested : Relation.TransGen (Call.Makes ["x"]) ⟨.sum, .plain, start⟩
      ⟨.sum, .plain, start.next⟩ := transGen_sum_of_round rfl
  have digit : (fullAnswers ["x"]).without left .exponent () start.next.next.next =
      .ok (.value (.number "1"), left.cursor) := Answers.without_of_ne (by simp [left])
  have behind : Call.Makes ["x"] raised left := by
    change (fullAnswers ["x"]).without left .exponent () start.next.next.next >>= _ = _
    rw [digit]
    exact Answers.without_self left
  exact ⟨(read 24 (by decide)).trans rfl, nested, descends _ _ nested rfl, behind,
    descends _ _ (.single behind) rfl⟩

end AnswerKey

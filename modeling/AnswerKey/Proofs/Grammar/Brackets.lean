import AnswerKey.Proofs.Grammar.Integrals
import AnswerKey.Proofs.Grammar.Spacing

/-! Brackets and bars around an expression: what stands between them is read as it
is read alone. -/
namespace AnswerKey.Grammar

open Formula (ofTokens)
open Rules (full)

variable {declared : List String} {ts : List Token} {opened closed : Token} {x : Formula}
  {limit : Nat}

/-- A pair of brackets, and what it makes of the expression between them. -/
inductive Enclosure : Token.Kind → Token.Kind → (Formula → Formula) → Prop
  | round : Enclosure (.opening .round) (.closing .round) .group
  | square : Enclosure (.opening .square) (.closing .square) .group
  | curly : Enclosure (.opening .curly) (.closing .curly) .group
  | literalBrace : Enclosure (.opening .literalBrace) (.closing .literalBrace) .group
  | floor : Enclosure (.opening .floor) (.closing .floor) fun x => .apply .floor [x] true
  | ceil : Enclosure (.opening .ceil) (.closing .ceil) fun x => .apply .ceil [x] true
  | bars : Enclosure .pipe .pipe fun x => .apply .abs [x] true

/-! The modes differ in bars only. -/

theorem sum_bars_of_ofTokens (hx : ofTokens declared ts limit = .ok x)
    (unrelated : x.isRelation = false) (unbarred : ∀ t ∈ ts, t.kind ≠ .pipe) (p : Option Nat) :
    ∃ last, (full declared).sum .bars ⟨ts, p, limit⟩ = .ok (x, last) ∧ last.kind = none := by
  obtain ⟨last, plain, hl⟩ := sum_of_ofTokens hx unrelated none
  let T : Twins := ⟨ts, ts, limit, limit, rfl⟩
  have flush : T.Flush := by
    intro i k t v u w ht hv hu hw
    obtain rfl : t = u := Option.some.inj (ht.symm.trans hu)
    obtain rfl : v = w := Option.some.inj (hv.symm.trans hw)
    rfl
  have fits : T.Fits .plain .bars :=
    ⟨rfl, rfl, fun ⟨t, ht, hk⟩ => absurd hk (unbarred t ht), nofun⟩
  have agree : T.Agree ((full declared).sum .plain (.start ts limit))
      ((full declared).sum .bars (.start ts limit)) :=
    (Twins.kept_rules (.inr flush) declared (sufficientDepth (.start ts limit))).sum fits
      Twins.Beside.start
  obtain ⟨t, rest, hts⟩ := cons_of_kind ((starts_full declared).sum plain).kind_ne_none
  obtain rfl : ts = t :: rest := hts
  rw [sum_previousStop declared .bars t rest p none]
  rw [show (full declared).sum .plain (.start (t :: rest) limit) = _ from plain] at agree
  generalize hb : (full declared).sum .bars (.start (t :: rest) limit) = b at agree
  cases agree with
  | @ok _ r h =>
    obtain ⟨y, last'⟩ := r
    obtain ⟨rfl, beside⟩ := h
    exact ⟨last', hb, beside.kind.trans hl⟩

theorem sum_before_bar (hx : ofTokens declared ts limit = .ok x)
    (unrelated : x.isRelation = false) (unbarred : ∀ t ∈ ts, t.kind ≠ .pipe)
    (hclosed : closed.kind = .pipe) (p : Option Nat) (limit' : Nat) :
    ∃ last, (full declared).sum .bars ⟨ts ++ [closed], p, limit'⟩ = .ok (x, last) ∧
      last.tokens = [closed] := by
  have ending : ∀ t ∈ [closed].head?, t.kind.isEnding = true := by
    simp [hclosed, Token.Kind.isEnding]
  obtain ⟨last, read, hl⟩ := sum_bars_of_ofTokens hx unrelated unbarred p
  let P := resemblance declared [closed] ending
  have related : P.rel ⟨ts, p, limit⟩ ⟨ts ++ [closed], p, limit'⟩ :=
    ⟨(Cursor.AlikeFrom.append [closed] ts p).mono (Nat.zero_le 1), .of_other (by simp [hclosed])⟩
  have bar : (Cursor.start [closed] 0).kind = some .pipe := by
    simp [Cursor.start, Cursor.kind, Cursor.kindAt, hclosed]
  have ends : SumEnds [closed] .bars := by
    simp [SumEnds, TermEnds, FactorEnds, bar, isSign, Mode.bars]
  have closes : Closes [closed] x := fun _ _ _ => by simp [bar]
  obtain ⟨last', read', hr⟩ :=
    ((follow_full P).sum (.refl _) rfl related).last read fun _ => ⟨ends, closes⟩
  exact ⟨last', read', P.ended hr hl⟩

theorem bracketed_alone {d : Delimiter} (hx : ofTokens declared ts limit = .ok x)
    (unrelated : x.isRelation = false) (hclosed : closed.kind = .closing d) (p : Option Nat)
    (limit' : Nat) :
    ∃ last, bracketed (full declared) d ⟨ts ++ [closed], p, limit'⟩ = .ok (x, last) ∧
      last.tokens = [] := by
  have trailing : ∀ t ∈ [closed].head?, t.kind.isTrailing = true := by
    simp [hclosed, Token.Kind.isTrailing]
  have bracket : (Cursor.start [closed] 0).kind = some (.closing d) := by
    simp [Cursor.start, Cursor.kind, Cursor.kindAt, hclosed]
  have closes : Closes [closed] x := fun _ _ _ => by simp [bracket]
  obtain ⟨m, hs, hm⟩ := sum_append trailing hx unrelated (.refl _)
    (by simp [SumEnds, TermEnds, FactorEnds, bracket, isSign]) closes
    (.of_other (by simp [hclosed])) p limit'
  exact ⟨_, bracketed_eq_ok.2 ⟨m, hs, kind_of_tokens hm hclosed, rfl⟩,
    Cursor.tokens_next_of_cons hm⟩

end AnswerKey.Grammar

namespace AnswerKey.Formula

open Grammar (Enclosure)

variable {declared : List String}

/-- An expression is read alike alone and in brackets, which make a group of it or
apply their function to it. Between bars it must not have bars of its own. -/
theorem ofTokens_enclosed {ts : List Token} {opened closed : Token} {around : Formula → Formula}
    {x : Formula} {k : Nat} (limit : Nat)
    (enclosure : Enclosure opened.kind closed.kind around)
    (unbarred : opened.kind = .pipe → ∀ t ∈ ts, t.kind ≠ .pipe)
    (hx : ofTokens declared ts k = .ok x) (unrelated : x.isRelation = false) :
    ofTokens declared (opened :: (ts ++ [closed])) limit = .ok (around x) := by
  have here : (Cursor.start (opened :: (ts ++ [closed])) limit).kind = some opened.kind := rfl
  have inside {d : Delimiter} (hclosed : closed.kind = .closing d) :=
    Grammar.bracketed_alone hx unrelated hclosed (some opened.stop) limit
  generalize ho : opened.kind = ko at enclosure here unbarred
  generalize hc : closed.kind = kc at enclosure inside
  cases enclosure with
  | round | square | curly | literalBrace =>
    obtain ⟨last, hb, hl⟩ := inside rfl
    exact Grammar.ofTokens_of_atom (Grammar.atom_eq_ok.2 (.group here (by simp)
      (Grammar.group_eq_ok.2 ⟨x, hb, rfl⟩))) hl
  | floor =>
    obtain ⟨last, hb, hl⟩ := inside rfl
    exact Grammar.ofTokens_of_atom (Grammar.atom_eq_ok.2 (.floor here hb)) hl
  | ceil =>
    obtain ⟨last, hb, hl⟩ := inside rfl
    exact Grammar.ofTokens_of_atom (Grammar.atom_eq_ok.2 (.ceil here hb)) hl
  | bars =>
    obtain ⟨last, hb, hl⟩ :=
      Grammar.sum_before_bar hx unrelated (unbarred rfl) hc (some opened.stop) limit
    exact Grammar.ofTokens_of_atom (Grammar.atom_eq_ok.2 (.bars here rfl
      (Grammar.bars_eq_ok.2 (.absolute hb (Grammar.kind_of_tokens hl hc)))))
      (Cursor.tokens_next_of_cons hl)

/-- An argument without brackets ends at the bar. -/
theorem ofTokens_enclosed_sine : ∃ tokens,
    Token.lex "|2 - \\sin x|" = .ok tokens ∧ ofTokens ["x"] tokens 12 =
      .ok (.apply .abs [.binary .sub (.number "2") (.apply .sin [.symbol "x"] false)] true) := by
  let T : List Token := [⟨.number, "2", 1, 2⟩, ⟨.minus, "-", 3, 4⟩, ⟨.function .sin, "\\sin", 5, 9⟩,
    ⟨.symbol, "x", 10, 11⟩]
  have bare : ∀ t ∈ T, t.kind ≠ .pipe := by decide
  let bar : Token := ⟨.pipe, "|", 0, 1⟩
  let bar' : Token := ⟨.pipe, "|", 11, 12⟩
  have enclosure : Enclosure bar.kind bar'.kind fun x => .apply .abs [x] true := .bars
  exact ⟨bar :: (T ++ [bar']), by rfl,
    ofTokens_enclosed (k := 11) 12 enclosure (fun _ => bare) (by rfl) rfl⟩

end AnswerKey.Formula

import AnswerKey.Proofs.Grammar.Precedence
import AnswerKey.Proofs.Grammar.Wording
import AnswerKey.Proofs.Token.Words

/-! The numbers of a formula are decimal literals, whichever digits were cut off
the tokens that they come from. The one exception is the point that is left of a
number that ends in it. -/
namespace AnswerKey

def Token.EndsInPoint (t : Token) : Prop := t.kind = .number ∧ t.text.toList.getLast? = some '.'

/-- What is left of a decimal literal when digits are cut off its front. -/
structure IsLeftover (pointed : Prop) (text : String) : Prop where
  shape : Decimal.IsLiteral text.toList ∨ text = "."
  last : text.toList.getLast? = some '.' → pointed

namespace IsLeftover

variable {pointed : Prop} {text : String} {d : Char} {others : List Char}

theorem of_digit (h : d.isDigit = true) : IsLeftover pointed d.toString where
  shape := .inl (by simpa using Decimal.isLiteral_digit h)
  last hd := by
    obtain rfl : d = '.' := by simpa using hd
    simp [Lexeme.isDigit_point] at h

theorem behind_digit (h : IsLeftover pointed text) (htext : text.toList = d :: others)
    (hd : d.isDigit = true) (more : others ≠ []) : IsLeftover pointed (String.ofList others) where
  shape := by
    rcases h.shape with hliteral | rfl
    · rw [htext] at hliteral
      rcases hliteral.behind_digit hd more with h | rfl
      · exact .inl (by simpa using h)
      · exact .inr rfl
    · have hpoint : '.' = d := (List.cons.inj htext).1
      rw [← hpoint, Lexeme.isDigit_point] at hd
      cases hd
  last hlast := by
    refine h.last ?_
    rw [htext, List.getLast?_cons_of_ne_nil more]
    simpa using hlast

theorem isLiteral_or_point (h : IsLeftover pointed text) :
    Decimal.IsLiteral text.toList ∨ text = "." ∧ pointed := by
  rcases h.shape with hliteral | rfl
  · exact .inl hliteral
  · exact .inr ⟨rfl, h.last rfl⟩

end IsLeftover

theorem Token.yields_leftover (pointed : Prop) :
    Token.Yields (fun t => t.kind = .number → IsLeftover pointed t.text) (IsLeftover pointed)
      fun _ => True where
  number ht kind := ht kind
  digit _ _ _ isDigit := .of_digit isDigit
  left ht kind text isDigit more _ := (ht kind).behind_digit text isDigit more
  symbol _ _ := trivial
  name _ _ := trivial

namespace Formula

variable {D N : String → Prop} {x y : Formula} {p : Place}

theorem mem_parts_of_mem_placedParts {f : Formula} (h : (p, y) ∈ f.placedParts) :
    y ∈ f.parts := by
  cases f with
  | integral lower upper body =>
    simp only [placedParts, List.map_append, List.mem_append, List.mem_map, List.mem_singleton,
      Prod.mk.injEq] at h
    simp only [parts, List.mem_append, List.mem_singleton]
    rcases h with (⟨z, hz, -, rfl⟩ | ⟨z, hz, -, rfl⟩) | ⟨-, rfl⟩
    · exact .inl hz
    · exact .inr (.inl hz)
    · exact .inr (.inr rfl)
  | _ =>
    obtain ⟨z, hz, heq⟩ := List.mem_map.1 h
    exact (Prod.mk.inj heq).2 ▸ hz

theorem Worded.of_occursAt (h : x.Worded D N) (hy : x.OccursAt p y) : y.Worded D N := by
  induction hy with
  | whole => exact h
  | inside _ part ih => exact ih.of_mem_parts (mem_parts_of_mem_placedParts part)

theorem Worded.hereditary (one : D "1") : Hereditary (Worded D N) where
  one := worded_number one
  fraction hn hd := .mk trivial (by simp [parts, hn, hd])
  of_mem_parts := Worded.of_mem_parts

theorem toExpr_of_isLiteral {digits : String} (h : Decimal.IsLiteral digits.toList) :
    ∃ v, (number digits).toExpr = .ok (.number v) ∧ v.HasPlusSign := by
  obtain ⟨v, hread, hv⟩ := h.read
  exact ⟨v, by simp [toExpr, hread], hv⟩

/-- Every number of a formula is a decimal literal and stands for a double with a
plus sign, and no expression fails at a number, but for a point that is left of a
number of the source that ends in it. -/
theorem isLiteral_of_ofTokens {source : String} {tokens : List Token} {declared : List String}
    {limit : Nat} (hlex : Token.lex source = .ok tokens)
    (h : ofTokens declared tokens limit = .ok x) :
    (∀ p digits, x.OccursAt p (number digits) →
      (Decimal.IsLiteral digits.toList ∧
        ∃ v, (number digits).toExpr = .ok (.number v) ∧ v.HasPlusSign) ∨
      digits = "." ∧ ∃ t ∈ tokens, t.EndsInPoint) ∧
    ∀ digits, x.toExpr = .error (.number digits) →
      digits = "." ∧ ∃ t ∈ tokens, t.EndsInPoint := by
  obtain ⟨ls, hls, rfl⟩ := Token.lexFrom_eq_ok.1 hlex
  have htokens : ∀ t ∈ Lexeme.tokensFrom 0 ls, t.kind = .number →
      IsLeftover (∃ t ∈ Lexeme.tokensFrom 0 ls, t.EndsInPoint) t.text := fun t ht hk =>
    ⟨.inl (hls.isLiteral ht hk), fun hlast => ⟨t, ht, hk, hlast⟩⟩
  have hx := worded_of_ofTokens (Token.yields_leftover _) htokens h
  constructor
  · intro p digits hdigits
    rcases (hx.of_occursAt hdigits).head.isLiteral_or_point with hliteral | hpoint
    · exact .inl ⟨hliteral, toExpr_of_isLiteral hliteral⟩
    · exact .inr hpoint
  · intro digits herror
    have hone : IsLeftover (∃ t ∈ Lexeme.tokensFrom 0 ls, t.EndsInPoint) ('1').toString :=
      .of_digit rfl
    obtain ⟨hdigits, hread⟩ := (Worded.hereditary hone).number_of_error hx herror
    rcases hdigits.head.isLiteral_or_point with hliteral | hpoint
    · obtain ⟨v, hv, -⟩ := hliteral.read
      simp [hread] at hv
    · exact hpoint

theorem isLiteral_split_exponent : ∃ tokens x, Token.lex "\\frac123x^1.5" = .ok tokens ∧
    ofTokens [] tokens 13 = .ok x ∧ x.OccursAt .part (number ".5") ∧
      Decimal.IsLiteral ".5".toList ∧ ∃ v, (number ".5").toExpr = .ok (.number v) ∧
        v.HasPlusSign := by
  let left := juxtaposed .fraction (.fraction (.number "1") (.number "2")) (.number "3")
  let power := juxtaposed .numberOrSymbol left (.power (.symbol "x") (.number "1"))
  have hread : (Token.lex "\\frac123x^1.5").toOption.bind (fun tokens =>
      (ofTokens [] tokens 13).toOption) = some (.juxtaposed .power power (.number ".5")) := by
    rfl
  obtain ⟨tokens, htokens, hx⟩ := Option.bind_eq_some_iff.1 hread
  have htokens := toOption_eq_some.1 htokens
  have hx := toOption_eq_some.1 hx
  have hoccurs : OccursAt (.juxtaposed .power power (.number ".5")) .part (number ".5") :=
    .inside .whole (by simp [placedParts, parts])
  obtain h | ⟨h, -⟩ := (isLiteral_of_ofTokens htokens hx).1 _ _ hoccurs
  · exact ⟨tokens, _, htokens, hx, hoccurs, h⟩
  · exact absurd h (by decide)

theorem not_isLiteral_point : ¬Decimal.IsLiteral ".".toList := by
  intro h
  obtain ⟨v, hread, -⟩ := h.read
  exact Option.some_ne_none v (hread.symm.trans Decimal.read?_point)

/-- A digit taken out of a number that ends in its point leaves the point. -/
theorem not_isLiteral_loose_point : ∃ tokens x, Token.lex "x^1." = .ok tokens ∧
    ofTokens ["x"] tokens 4 = .ok x ∧ x.OccursAt .part (number ".") ∧
      ¬Decimal.IsLiteral ".".toList ∧ x.toExpr = .error (.number ".") := by
  let x := juxtaposed .power (.power (.symbol "x") (.number "1")) (.number ".")
  have hread : (Token.lex "x^1.").toOption.bind (fun tokens =>
      (ofTokens ["x"] tokens 4).toOption) = some x := by
    rfl
  obtain ⟨tokens, htokens, hx⟩ := Option.bind_eq_some_iff.1 hread
  obtain ⟨v, hone, -⟩ := (Decimal.isLiteral_digit (d := '1') rfl).read
  refine ⟨tokens, x, toOption_eq_some.1 htokens, toOption_eq_some.1 hx,
    .inside .whole (by simp [x, placedParts, parts]), not_isLiteral_point, ?_⟩
  simp [x, toExpr, hone, Decimal.read?_point, bind, Except.bind, pure, Except.pure]

end Formula

end AnswerKey

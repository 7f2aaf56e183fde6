import AnswerKey.Proofs.Answer.FalseBox
import AnswerKey.Proofs.Token.Words

/-! Where the tokens of a text stand in it, and that a text cut at the start or the
end of a token falls into the same tokens. -/
namespace AnswerKey

namespace Text

/-- The byte offset is one between two characters of the text, or at one of its ends;
none is behind the text. -/
def IsBoundary (cs : List Char) (p : Nat) : Prop := ∃ a b, cs = a ++ b ∧ size a = p

variable {cs : List Char} {p : Nat}

theorem isBoundary_size (cs : List Char) : IsBoundary cs (size cs) := ⟨cs, [], by simp, rfl⟩

theorem IsBoundary.behind (h : IsBoundary cs p) (a : List Char) :
    IsBoundary (a ++ cs) (size a + p) := by
  obtain ⟨b, c, rfl, rfl⟩ := h
  exact ⟨a ++ b, c, by simp, by simp⟩

end Text

namespace Lexeme

open Text (IsBoundary size slice)

variable {cs : List Char} {ls ms ns : List Lexeme} {p : Nat}

theorem letters_of_named {l : Lexeme} {kind : Token.Kind} {name : String}
    (h : l.meaning p = .ok (.named kind name)) :
    (kind = .symbol ∨ kind = .differential) ∧ ∀ c ∈ name.toList, c.isAlpha = true := by
  cases l with
  | command word =>
    cases Token.commandMeans (meaning_command.1 h) with
    | letter known => exact ⟨.inl rfl, (Token.isLetters_of_greekLetter known).2⟩
  | wrapped word content =>
    generalize hm : Token.Meaning.named kind name = m at h
    cases Token.wordMeans (meaning_wrapped.1 h) with
    | differential sign =>
      cases hm
      exact ⟨.inr rfl, by simp [sign]⟩
    | letters nonempty alphas =>
      cases hm
      exact ⟨.inl rfl, alphas⟩
    | empty | function => cases hm
  | pi =>
    cases h
    exact ⟨.inl rfl, Text.forall_of_all (by decide)⟩
  | _ => simp [meaning] at h

theorem text_of_token {l : Lexeme} {t : Token} (h : l.tokens p = .ok [t]) :
    t.text.toList = l.text ∨ (t.kind = .symbol ∨ t.kind = .differential) ∧
      ∀ c ∈ t.text.toList, c.isAlpha = true := by
  obtain ⟨-, htext⟩ | hm := meaning_of_mem_tokens h (List.mem_singleton_self t)
  · exact .inl htext
  · exact .inr (letters_of_named hm)

end Lexeme

namespace Token

open Lexeme (Reads row tokensFrom tokensFrom_none tokensFrom_one)
open Text (IsBoundary size slice takeBytes dropBytes)

def shift (p : Nat) (t : Token) : Token := { t with start := p + t.start, stop := p + t.stop }

/-- The token stands at a part of the text that is not empty and that it is made of,
unless it is a name. -/
structure StandsIn (cs : List Char) (t : Token) : Prop where
  nonempty : t.start < t.stop
  start : IsBoundary cs t.start
  stop : IsBoundary cs t.stop
  text : t.kind ≠ .symbol → t.kind ≠ .differential → t.text.toList = slice t.start t.stop cs

variable {cs : List Char} {ls : List Lexeme} {source : String} {ts before after : List Token}
  {t u : Token}

theorem tokensFrom_add (h : ∀ l ∈ ls, l.IsLegal) (p q : Nat) :
    tokensFrom (p + q) ls = (tokensFrom q ls).map (shift p) := by
  induction ls generalizing q with
  | nil => rfl
  | cons l ls ih =>
    have rest := ih (fun m hm => h m (List.mem_cons_of_mem l hm)) (q + size l.text)
    obtain hl | ⟨kind, name, hl⟩ := Lexeme.tokens_eq_ok (h l List.mem_cons_self)
    · rw [tokensFrom_none hl, tokensFrom_none hl, Nat.add_assoc, rest]
    · rw [tokensFrom_one hl, tokensFrom_one hl, Nat.add_assoc, rest, List.map_cons, shift]

theorem exists_place (h : Reads cs ls) (ht : tokensFrom 0 ls = before ++ t :: after) :
    ∃ ms l ns, ls = ms ++ l :: ns ∧ cs = row ms ++ (l.text ++ row ns) ∧ l.text ≠ [] ∧
      size (row ms) = t.start ∧ size (row ms) + size l.text = t.stop ∧
      tokensFrom t.stop ns = after ∧ l.tokens t.start = .ok [t] := by
  obtain ⟨ms, l, ns, rfl, -, hafter, hstart, hstop, hl⟩ := Answer.exists_lexeme h.legal ht
  have hl := hl t.start
  rw [← hstop] at hl
  rw [Nat.zero_add] at hafter hstart
  rw [hstart] at hstop
  refine ⟨ms, l, ns, rfl, by simp [h.text], ?_, hstart.symm, hstop.symm, ?_, hl⟩
  · have hrest := h.of_suffix
    generalize row (l :: ns) = rest at hrest
    cases hrest with
    | cons starts => exact starts.text_ne_nil
  · rw [hstop]
    exact hafter

theorem standsIn_of_mem (h : Reads cs ls) (ht : t ∈ tokensFrom 0 ls) : t.StandsIn cs := by
  obtain ⟨before, after, hts⟩ := List.append_of_mem ht
  obtain ⟨ms, l, ns, -, rfl, hnonempty, hstart, hstop, -, hl⟩ := exists_place h hts
  refine ⟨?_, ?_, ?_, fun symbol differential => ?_⟩
  · rw [← hstart, ← hstop]
    exact Nat.lt_add_of_pos_right (Lexeme.size_pos hnonempty)
  · exact ⟨row ms, _, rfl, hstart⟩
  · exact ⟨row ms ++ l.text, row ns, by simp, by rw [Text.size_append, hstop]⟩
  · obtain htext | ⟨hkind, -⟩ := Lexeme.text_of_token hl
    · rw [htext, ← hstart, ← hstop, Text.slice_append]
    · exact absurd hkind (by simp [symbol, differential])

theorem exists_split (h : ∀ l ∈ ls, l.IsLegal) {p : Nat} {us vs : List Token}
    (hts : tokensFrom p ls = us ++ vs) :
    ∃ ms ns, ls = ms ++ ns ∧ tokensFrom p ms = us ∧ tokensFrom (p + size (row ms)) ns = vs := by
  cases vs with
  | nil => exact ⟨ls, [], by simp, by simpa using hts, rfl⟩
  | cons v vs =>
    obtain ⟨ms, l, ns, rfl, hms, -⟩ := Answer.exists_lexeme h hts
    rw [Lexeme.tokensFrom_append, hms] at hts
    exact ⟨ms, l :: ns, rfl, hms, List.append_cancel_left hts⟩

theorem lex_row (h : Reads (row ls) ls) : lex (String.ofList (row ls)) = .ok (tokensFrom 0 ls) :=
  lexFrom_eq_ok.2 ⟨ls, by rwa [String.toList_ofList], rfl⟩

theorem lex_cut {ms ns : List Lexeme} (h : Reads cs (ms ++ ns)) :
    ∃ left right, lex (String.ofList (takeBytes (size (row ms)) cs)) = .ok left ∧
      lex (String.ofList (dropBytes (size (row ms)) cs)) = .ok right ∧
      tokensFrom 0 (ms ++ ns) = left ++ right.map (shift (size (row ms))) := by
  have hcs : cs = row ms ++ row ns := by simp [h.text]
  refine ⟨tokensFrom 0 ms, tokensFrom 0 ns, ?_, ?_, ?_⟩
  · rw [hcs, Text.takeBytes_size_append, lex_row h.of_prefix]
  · rw [hcs, Text.dropBytes_size_append, lex_row h.of_suffix]
  · have hns := tokensFrom_add h.of_suffix.legal (size (row ms)) 0
    rw [Nat.add_zero] at hns
    rw [Lexeme.tokensFrom_append, Nat.zero_add, hns]

theorem lex_between (h : Reads cs ls) (hts : tokensFrom 0 ls = before ++ t :: u :: after) :
    lex (String.ofList (slice t.stop u.start cs)) = .ok [] := by
  obtain ⟨ms, l, ns, rfl, hcs, -, -, hstop, hns, -⟩ := exists_place h hts
  have legal : ∀ m ∈ ns, m.IsLegal := fun m hm => h.legal m (by simp [hm])
  obtain ⟨gap, m, rest, rfl, hgap, -, hstart, -⟩ := @Answer.exists_lexeme _ legal _ [] _ _ hns
  have between : slice t.stop u.start cs = row gap := by
    rw [hcs, hstart, ← hstop, ← Text.size_append, Lexeme.row_append, ← List.append_assoc,
      Text.slice_append]
  have reads : Reads (row gap) gap := h.of_suffix.rest.of_prefix
  rw [between, lex_row reads, Answer.silent_of_nil reads.legal hgap]

/-- The tokens of a text stand in it one behind the other. Cut at the start or at the
end of one of them, the text falls into two that have the same tokens, those of the
second moved on by the size of the first; what is between two tokens has none. -/
theorem lex_split (h : lex source = .ok ts) :
    (∀ t ∈ ts, t.StandsIn source.toList) ∧ ts.Pairwise (fun t u => t.stop ≤ u.start) ∧
      (∀ t ∈ ts, ∀ p, p = t.start ∨ p = t.stop → ∃ left right,
        lex (String.ofList (takeBytes p source.toList)) = .ok left ∧
        lex (String.ofList (dropBytes p source.toList)) = .ok right ∧
        ts = left ++ right.map (shift p)) ∧
      ∀ before t u after, ts = before ++ t :: u :: after →
        lex (String.ofList (slice t.stop u.start source.toList)) = .ok [] := by
  obtain ⟨ls, hls, rfl⟩ := lexFrom_eq_ok.1 h
  refine ⟨fun t => standsIn_of_mem hls, (Answer.ordered_tokensFrom hls.legal 0).1,
    fun t ht p hp => ?_, fun before t u after => lex_between hls⟩
  obtain ⟨before, after, hts⟩ := List.append_of_mem ht
  obtain ⟨ms, l, ns, rfl, -, -, hstart, hstop, -⟩ := exists_place hls hts
  obtain rfl | rfl := hp
  · rw [← hstart]
    exact lex_cut hls
  · have hrow : size (row (ms ++ [l])) = t.stop := by simp [← hstop]
    have regroup : ms ++ l :: ns = ms ++ [l] ++ ns := by simp
    rw [← hrow, regroup]
    exact lex_cut (regroup ▸ hls)

theorem lex_split_before_relation : ∃ ts left right,
    lex "\\sin2.5x\\\\<=\\text\x7b d \x7d−π" = .ok ts ∧ lex "\\sin2.5x\\\\" = .ok left ∧
      lex "<=\\text\x7b d \x7d−π" = .ok right ∧ ts = left ++ right.map (shift 10) ∧
      ts.map (fun t => (t.text, t.start, t.stop)) =
        [("\\sin", 0, 4), ("2.5", 4, 7), ("x", 7, 8), ("<=", 10, 12), ("d", 12, 22),
          ("−", 22, 25), ("pi", 25, 27)] := by
  obtain ⟨ts, hlex, htexts⟩ : ∃ ts, lex "\\sin2.5x\\\\<=\\text\x7b d \x7d−π" = .ok ts ∧
      ts.map (fun t => (t.text, t.start, t.stop)) =
        [("\\sin", 0, 4), ("2.5", 4, 7), ("x", 7, 8), ("<=", 10, 12), ("d", 12, 22),
          ("−", 22, 25), ("pi", 25, 27)] := ⟨_, rfl, rfl⟩
  obtain ⟨-, -, hcut, -⟩ := lex_split hlex
  obtain ⟨t, ht, hplace⟩ : ∃ t ∈ ts, (t.text, t.start, t.stop) = ("<=", 10, 12) :=
    List.mem_map.1 (htexts ▸ by decide)
  simp only [Prod.mk.injEq] at hplace
  obtain ⟨left, right, hleft, hright, hts⟩ := hcut t ht 10 (.inl hplace.2.1.symm)
  exact ⟨ts, left, right, hlex, hleft, hright, hts, htexts⟩

end Token

end AnswerKey

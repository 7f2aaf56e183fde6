import AnswerKey.Proofs.Decimal.Literal
import AnswerKey.Proofs.Token.Lexemes

/-! The texts of the tokens that a formula keeps: letters for a symbol, figures
for a number. -/
namespace AnswerKey

def isWordChar (c : Char) : Bool := c.isAlphanum || c = '_' || c = '.'

def IsName (s : String) : Prop :=
  ∃ c cs, s.toList = c :: cs ∧ c.isAlpha = true ∧ ∀ d ∈ cs, isWordChar d = true

def IsLetters (s : String) : Prop := s ≠ "" ∧ ∀ c ∈ s.toList, c.isAlpha = true

def IsFigures (s : String) : Prop := ∀ c ∈ s.toList, Decimal.IsFigure c

theorem isWordChar_of_isAlpha {c : Char} (h : c.isAlpha = true) : isWordChar c = true := by
  simp [isWordChar, Char.isAlphanum, h]

theorem isWordChar_of_isFigure {c : Char} (h : Decimal.IsFigure c) : isWordChar c = true := by
  rcases h with h | rfl
  · simp [isWordChar, Char.isAlphanum, h]
  · decide

theorem IsName.isWordChar {s : String} (h : IsName s) : ∀ c ∈ s.toList, isWordChar c = true := by
  obtain ⟨c, cs, hs, hc, hcs⟩ := h
  rw [hs, List.forall_mem_cons]
  exact ⟨isWordChar_of_isAlpha hc, hcs⟩

theorem IsName.ne_empty {s : String} (h : IsName s) : s ≠ "" := by
  obtain ⟨c, cs, hs, -⟩ := h
  rintro rfl
  cases hs

theorem IsLetters.isName {s : String} (h : IsLetters s) : IsName s := by
  obtain ⟨c, cs, hs⟩ := List.exists_cons_of_ne_nil (mt String.toList_eq_nil_iff.1 h.1)
  have hall := h.2
  rw [hs, List.forall_mem_cons] at hall
  exact ⟨c, cs, hs, hall.1, fun d hd => isWordChar_of_isAlpha (hall.2 d hd)⟩

theorem isName_of_all {s : String} (h : (s ≠ "" ∧ s.toList.all Char.isAlpha = true)) : IsName s :=
  IsLetters.isName ⟨h.1, List.all_eq_true.1 h.2⟩

theorem IsName.append {s t : String} (h : IsName s)
    (ht : ∀ c ∈ t.toList, AnswerKey.isWordChar c = true) : IsName (s ++ t) := by
  obtain ⟨c, cs, hs, hc, hcs⟩ := h
  refine ⟨c, cs ++ t.toList, by rw [String.toList_append, hs, List.cons_append], hc, ?_⟩
  exact List.forall_mem_append.2 ⟨hcs, ht⟩

def Token.Kind.isWordless : Token.Kind → Bool
  | .number | .symbol => false
  | _ => true

/-- The token is a symbol of letters, a number of figures, or neither. -/
structure Token.Lettered (t : Token) : Prop where
  symbol : t.kind = .symbol → IsLetters t.text
  number : t.kind = .number → IsFigures t.text

namespace Token

theorem lettered_of_wordless {t : Token} (h : t.kind.isWordless = true) : t.Lettered := by
  constructor <;> intro hk <;> rw [hk] at h <;> cases h

theorem isLetters_of_greekLetter {name letter : String} (h : greekLetter? name = some letter) :
    IsLetters letter := by
  have all : ∀ s ∈ greekLetters, s ≠ "" ∧ s.toList.all Char.isAlpha = true := by decide
  simp only [greekLetter?] at h
  split at h
  · next hmem =>
    obtain rfl := Option.some.inj h
    obtain ⟨hne, halpha⟩ := all _ (List.contains_iff_mem.1 hmem)
    exact ⟨hne, List.all_eq_true.1 halpha⟩
  · cases h

def Meaning.Lettered : Meaning → Prop
  | .nothing => True
  | .mark kind => kind.isWordless = true
  | .named kind name => kind ≠ .number ∧ (kind = .symbol → IsLetters name)

theorem lettered_of_command {name : String} {m : Meaning} (h : command? name = some m) :
    m.Lettered := by
  have marks : ∀ e ∈ markCommands, e.2.isWordless = true := by decide
  cases commandMeans h with
  | layout => trivial
  | letter known => exact ⟨by simp, fun _ => isLetters_of_greekLetter known⟩
  | function f => rfl
  | mark known => exact marks _ known

theorem lettered_of_wrappedWord {word : String} {m : Meaning} (h : wrappedWord? word = some m) :
    m.Lettered := by
  cases wordMeans h with
  | empty => trivial
  | differential => exact ⟨by simp, by simp⟩
  | function => rfl
  | letters nonempty alphas => exact ⟨by simp, fun _ => ⟨nonempty, alphas⟩⟩

end Token

namespace Lexeme

theorem lettered_of_meaning {l : Lexeme} {p : Nat} {ts : List Token} {m : Token.Meaning}
    (hm : l.meaning p = .ok m) (h : l.tokens p = .ok ts) (hl : m.Lettered) :
    ∀ t ∈ ts, t.kind ≠ .number ∧ t.Lettered := by
  simp only [tokens, hm, Except.map, Except.ok.injEq] at h
  subst h
  cases m with
  | nothing => exact List.forall_mem_nil _
  | mark kind =>
    simp only [List.mem_singleton, forall_eq]
    refine ⟨?_, Token.lettered_of_wordless hl⟩
    rintro rfl
    cases hl
  | named kind name =>
    simp only [List.mem_singleton, forall_eq]
    exact ⟨hl.1, hl.2, fun hk => absurd hk hl.1⟩

theorem literal_or_lettered {l : Lexeme} {p : Nat} {cs rest : List Char} {ts : List Token}
    (h : Starts l cs rest) (hts : l.tokens p = .ok ts) :
    (∃ ds, l = number ds ∧ Decimal.IsLiteral ds) ∨
      ∀ t ∈ ts, t.kind ≠ .number ∧ t.Lettered := by
  have mark {kind : Token.Kind} {cs : List Char} (hl : l = mark kind cs)
      (hk : kind.isWordless = true) : ∀ t ∈ ts, t.kind ≠ .number ∧ t.Lettered := by
    subst hl
    exact lettered_of_meaning (m := .mark kind) rfl hts hk
  cases h with
  | integer nonempty digits stop => exact .inl ⟨_, rfl, .integer nonempty digits⟩
  | decimal digits decimals nonempty stop =>
    exact .inl ⟨_, rfl, .decimal digits decimals nonempty⟩
  | @letter c _ alpha =>
    obtain rfl := Except.ok.inj hts
    simp only [List.mem_singleton, forall_eq]
    by_cases hd : c = 'd'
    · exact .inr ⟨by simp [hd], Token.lettered_of_wordless (by simp [hd, Token.Kind.isWordless])⟩
    · refine .inr ⟨by simp [hd], fun _ => ⟨by simp [text], by simpa [text] using alpha⟩, ?_⟩
      simp [hd]
  | escapedSpacing | skipped => exact .inr (lettered_of_meaning (m := .nothing) rfl hts trivial)
  | literalOpen | literalClose | lessEqual | greaterEqual => exact .inr (mark rfl rfl)
  | @command name _ nonempty alphas stop unwrapped =>
    obtain ⟨m, hm⟩ := meaning_of_tokens hts
    have lettered := Token.lettered_of_command (meaning_command.1 hm)
    exact .inr (lettered_of_meaning hm hts lettered)
  | @wrapped word content _ nonempty alphas wrapper flat =>
    obtain ⟨m, hm⟩ := meaning_of_tokens hts
    have lettered := Token.lettered_of_wrappedWord (meaning_wrapped.1 hm)
    exact .inr (lettered_of_meaning hm hts lettered)
  | pi =>
    exact .inr (lettered_of_meaning (m := .named .symbol "pi") rfl hts
      ⟨by simp, fun _ => ⟨by decide, Text.forall_of_all (by decide)⟩⟩)
  | @mark c kind _ known stop =>
    have marks : ∀ e ∈ Token.markCharacters, e.2.isWordless = true := by decide
    exact .inr (mark rfl (marks (c, kind) (mem_of_lookup known)))

theorem lettered_of_starts {l : Lexeme} {p : Nat} {cs rest : List Char} {ts : List Token}
    (h : Starts l cs rest) (hts : l.tokens p = .ok ts) :
    ∀ t ∈ ts, t.Lettered ∧ (t.kind = .number → Decimal.IsLiteral t.text.toList) := by
  obtain ⟨ds, rfl, hds⟩ | hother := literal_or_lettered h hts
  · obtain rfl := Except.ok.inj hts
    simp only [List.mem_singleton, forall_eq]
    exact ⟨⟨by simp, fun _ => by simpa [IsFigures, text] using hds.figure⟩,
      fun _ => by simpa [text] using hds⟩
  · exact fun t ht => ⟨(hother t ht).2, fun hk => absurd hk (hother t ht).1⟩

theorem Reads.lettered_and_literal {cs : List Char} {ls : List Lexeme} (h : Reads cs ls) (p : Nat) :
    ∀ t ∈ tokensFrom p ls,
      t.Lettered ∧ (t.kind = .number → Decimal.IsLiteral t.text.toList) := by
  induction h generalizing p with
  | nil => exact List.forall_mem_nil _
  | @cons l ls cs rest starts legal more ih =>
    rw [tokensFrom, List.forall_mem_append]
    refine ⟨?_, ih _⟩
    cases hts : l.tokens p with
    | error e => exact List.forall_mem_nil _
    | ok ts => exact lettered_of_starts starts hts

theorem Reads.lettered {cs : List Char} {ls : List Lexeme} (h : Reads cs ls) (p : Nat) :
    ∀ t ∈ tokensFrom p ls, t.Lettered := fun t ht => (h.lettered_and_literal p t ht).1

theorem Reads.isLiteral {cs : List Char} {ls : List Lexeme} {t : Token} (h : Reads cs ls)
    {p : Nat} (ht : t ∈ tokensFrom p ls) (hk : t.kind = .number) :
    Decimal.IsLiteral t.text.toList := (h.lettered_and_literal p t ht).2 hk

end Lexeme

end AnswerKey

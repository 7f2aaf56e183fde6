import AnswerKey.Proofs.Success
import AnswerKey.Token.Lexer

/-! The lexemes that mean something, by what they are made of and what may follow
them. -/
namespace AnswerKey

theorem takeWhile_of_all {α : Type} {p : α → Bool} {a b : List α} (ha : ∀ c ∈ a, p c = true)
    (hb : ∀ c ∈ b.head?, p c = false) : (a ++ b).takeWhile p = a ∧ (a ++ b).dropWhile p = b := by
  rw [List.takeWhile_append_of_pos ha, List.dropWhile_append_of_pos ha]
  cases b with
  | nil => simp
  | cons c rest => simp [hb c rfl]

theorem all_takeWhile (p : Char → Bool) (cs : List Char) : ∀ c ∈ cs.takeWhile p, p c = true :=
  List.all_eq_true.1 List.all_takeWhile

theorem head_dropWhile (p : Char → Bool) (cs : List Char) :
    ∀ c ∈ (cs.dropWhile p).head?, p c = false := by
  intro c hc
  have h := List.head?_dropWhile_not p cs
  rwa [Option.mem_def.1 hc] at h

theorem mem_of_lookup {α β : Type} [BEq α] [LawfulBEq α] {a : α} {b : β} {entries : List (α × β)}
    (h : entries.lookup a = some b) : (a, b) ∈ entries := by
  obtain ⟨before, after, hentries, -⟩ := List.lookup_eq_some_iff.1 h
  simp [hentries]

namespace Token

inductive CommandMeans (name : String) : Meaning → Prop
  | layout : CommandMeans name .nothing
  | letter {letter : String} (known : greekLetter? name = some letter) :
      CommandMeans name (.named .symbol letter)
  | function (f : Builtin) : CommandMeans name (.mark (.function f))
  | mark {kind : Kind} (known : (name, kind) ∈ markCommands) : CommandMeans name (.mark kind)

inductive WordMeans (word : String) : Meaning → Prop
  | empty (empty : word = "") : WordMeans word .nothing
  | differential (sign : word = "d") : WordMeans word (.named .differential word)
  | function {f : Builtin} (known : Builtin.ofName? word = some f) :
      WordMeans word (.mark (.function f))
  | letters (nonempty : word ≠ "") (alphas : ∀ c ∈ word.toList, c.isAlpha = true) :
      WordMeans word (.named .symbol word)

theorem commandMeans {name : String} {m : Meaning} (h : command? name = some m) :
    CommandMeans name m := by
  unfold command? at h
  split at h
  · cases h
    exact .layout
  · split at h
    · next known =>
      cases h
      exact .letter known
    · split at h
      · next f _ =>
        cases h
        exact .function f
      · obtain ⟨kind, known, rfl⟩ := Option.map_eq_some_iff.1 h
        exact .mark (mem_of_lookup known)

theorem wordMeans {word : String} {m : Meaning} (h : wrappedWord? word = some m) :
    WordMeans word m := by
  unfold wrappedWord? at h
  split at h
  · next empty =>
    cases h
    exact .empty empty
  · next nonempty =>
    split at h
    · next sign =>
      cases h
      exact .differential sign
    · split at h
      · next f known =>
        cases h
        exact .function (Option.filter_eq_some_iff.1 known).1
      · split at h
        · next alphas =>
          cases h
          exact .letters nonempty (List.all_eq_true.1 alphas)
        · cases h

end Token

namespace Lexeme

attribute [grind =] scan afterBackslash fraction meaning

def isBrace (c : Char) : Bool := c = '{' || c = '}'

/-- The text starts with the lexeme, and goes on with a rest that leaves the
lexeme as it is. -/
inductive Starts : Lexeme → List Char → List Char → Prop
  | integer {ds rest : List Char} (nonempty : ds ≠ []) (digits : ∀ c ∈ ds, c.isDigit = true)
      (stop : ∀ c ∈ rest.head?, c.isDigit = false ∧ c ≠ '.') :
      Starts (.number ds) (ds ++ rest) rest
  | decimal {ds fs rest : List Char} (digits : ∀ c ∈ ds, c.isDigit = true)
      (decimals : ∀ c ∈ fs, c.isDigit = true) (nonempty : ds ≠ [] ∨ fs ≠ [])
      (stop : ∀ c ∈ rest.head?, c.isDigit = false) :
      Starts (.number (ds ++ '.' :: fs)) (ds ++ '.' :: fs ++ rest) rest
  | letter {c : Char} {rest : List Char} (alpha : c.isAlpha = true) :
      Starts (.letter c) (c :: rest) rest
  | literalOpen {rest : List Char} :
      Starts (.mark (.opening .literalBrace) ['\\', '{']) ('\\' :: '{' :: rest) rest
  | literalClose {rest : List Char} :
      Starts (.mark (.closing .literalBrace) ['\\', '}']) ('\\' :: '}' :: rest) rest
  | escapedSpacing {c : Char} {rest : List Char} (mark : c ∈ spacingMarks) :
      Starts (.spacing ['\\', c]) ('\\' :: c :: rest) rest
  | command {name rest : List Char} (nonempty : name ≠ []) (alphas : ∀ c ∈ name, c.isAlpha = true)
      (stop : ∀ c ∈ rest.head?, c.isAlpha = false)
      (unwrapped : Token.wrapperCommands.contains (String.ofList name) = true →
        rest.head? ≠ some '{') :
      Starts (.command name) ('\\' :: name ++ rest) rest
  | wrapped {word content rest : List Char} (nonempty : word ≠ [])
      (alphas : ∀ c ∈ word, c.isAlpha = true)
      (wrapper : Token.wrapperCommands.contains (String.ofList word) = true)
      (flat : ∀ c ∈ content, isBrace c = false) :
      Starts (.wrapped word content) ('\\' :: word ++ '{' :: content ++ ['}'] ++ rest) rest
  | lessEqual {rest : List Char} :
      Starts (.mark (.relation .lessEqual) ['<', '=']) ('<' :: '=' :: rest) rest
  | greaterEqual {rest : List Char} :
      Starts (.mark (.relation .greaterEqual) ['>', '=']) ('>' :: '=' :: rest) rest
  | pi {rest : List Char} : Starts .pi ('π' :: rest) rest
  | skipped {c : Char} {rest : List Char} (mark : c ∈ skippedMarks) :
      Starts (.spacing [c]) (c :: rest) rest
  | mark {c : Char} {kind : Token.Kind} {rest : List Char}
      (known : Token.markCharacters.lookup c = some kind)
      (stop : c = '<' ∨ c = '>' → rest.head? ≠ some '=') :
      Starts (.mark kind [c]) (c :: rest) rest

def IsLegal (l : Lexeme) : Prop := ∃ m, l.meaning 0 = .ok m

theorem meaning_command {name : List Char} {p : Nat} {m : Token.Meaning} :
    (command name).meaning p = .ok m ↔ Token.command? (String.ofList name) = some m := by
  simp only [meaning]
  split <;> simp_all

theorem meaning_wrapped {word content : List Char} {p : Nat} {m : Token.Meaning} :
    (wrapped word content).meaning p = .ok m ↔
      Token.wrappedWord? (String.ofList (Text.trim content)) = some m := by
  simp only [meaning]
  split <;> simp_all

theorem meaning_of_tokens {l : Lexeme} {p : Nat} {ts : List Token} (h : l.tokens p = .ok ts) :
    ∃ m, l.meaning p = .ok m := by
  obtain ⟨m, hm, -⟩ := map_eq_ok.1 h
  exact ⟨m, hm⟩

theorem meaning_of_mem_tokens {l : Lexeme} {p : Nat} {ts : List Token} {t : Token}
    (h : l.tokens p = .ok ts) (ht : t ∈ ts) :
    (l.meaning p = .ok (.mark t.kind) ∧ t.text.toList = l.text) ∨
      l.meaning p = .ok (.named t.kind t.text) := by
  obtain ⟨m, hm, rfl⟩ := map_eq_ok.1 h
  cases m with
  | nothing => cases ht
  | mark kind =>
    obtain rfl := List.mem_singleton.1 ht
    exact .inl ⟨hm, String.toList_ofList⟩
  | named kind name =>
    obtain rfl := List.mem_singleton.1 ht
    exact .inr hm

theorem meaning_eq_ok {l : Lexeme} {p q : Nat} {m : Token.Meaning} (h : l.meaning p = .ok m) :
    l.meaning q = .ok m := by
  cases l with
  | command name => exact meaning_command.2 (meaning_command.1 h)
  | wrapped word content => exact meaning_wrapped.2 (meaning_wrapped.1 h)
  | unterminated | unexpected => simp [meaning] at h
  | _ => exact h

theorem Starts.text {l : Lexeme} {cs rest : List Char} (h : Starts l cs rest) :
    cs = l.text ++ rest := by
  cases h <;> simp [Lexeme.text]

theorem Starts.text_ne_nil {l : Lexeme} {cs rest : List Char} (h : Starts l cs rest) :
    l.text ≠ [] := by
  cases h with
  | integer nonempty => exact nonempty
  | _ => simp [Lexeme.text]

theorem plain_of_mark {c : Char} {kind : Token.Kind} (h : Token.markCharacters.lookup c = some kind) :
    c.isDigit = false ∧ c.isAlpha = false ∧ c ≠ '.' ∧ c ≠ '\\' ∧ c ≠ 'π' ∧ c ∉ skippedMarks := by
  have all : ∀ e ∈ Token.markCharacters, e.1.isDigit = false ∧ e.1.isAlpha = false ∧ e.1 ≠ '.' ∧
      e.1 ≠ '\\' ∧ e.1 ≠ 'π' ∧ e.1 ∉ skippedMarks := by decide
  exact all _ (mem_of_lookup h)

theorem plain_of_skipped {c : Char} (h : c ∈ skippedMarks) :
    c.isDigit = false ∧ c.isAlpha = false ∧ c ≠ '.' ∧ c ≠ '\\' ∧ c ≠ '<' ∧ c ≠ '>' ∧ c ≠ 'π' := by
  have all : ∀ c ∈ skippedMarks, c.isDigit = false ∧ c.isAlpha = false ∧ c ≠ '.' ∧ c ≠ '\\' ∧
      c ≠ '<' ∧ c ≠ '>' ∧ c ≠ 'π' := Text.forall_of_all (by decide)
  exact all c h

theorem not_alpha_of_spacing {c : Char} (h : c ∈ spacingMarks) :
    c.isAlpha = false ∧ c ≠ '{' ∧ c ≠ '}' := by
  have all : ∀ c ∈ spacingMarks, c.isAlpha = false ∧ c ≠ '{' ∧ c ≠ '}' :=
    Text.forall_of_all (by decide)
  exact all c h

theorem isDigit_of_isAlpha {c : Char} (h : c.isAlpha = true) : c.isDigit = false := by
  have hletter : 'A'.val ≤ c.val := by
    obtain h | h : c.isUpper = true ∨ c.isLower = true := Bool.or_eq_true_iff.1 h
    · exact (of_decide_eq_true h).1
    · have hlower : 'a'.val ≤ c.val := of_decide_eq_true (Bool.and_eq_true_iff.1 h).1
      exact UInt32.le_trans (by decide) hlower
  have hlast : ¬c.val ≤ '9'.val := UInt32.not_le.2 (UInt32.lt_of_lt_of_le (by decide) hletter)
  exact Bool.and_eq_false_iff.2 (.inr (decide_eq_false hlast))

theorem isDigit_point : '.'.isDigit = false := by decide

theorem not_brace_iff {c : Char} : (c != '{' && c != '}') = true ↔ isBrace c = false := by
  simp [isBrace]

theorem afterBackslash_command {name rest : List Char} (nonempty : name ≠ [])
    (alphas : ∀ c ∈ name, c.isAlpha = true) (stop : ∀ c ∈ rest.head?, c.isAlpha = false)
    (unwrapped : Token.wrapperCommands.contains (String.ofList name) = true →
      rest.head? ≠ some '{') :
    afterBackslash (name ++ rest) = command name := by
  obtain ⟨ht, hd⟩ := takeWhile_of_all alphas stop
  simp only [afterBackslash, ht, hd, if_neg nonempty]
  split
  · next inner hw => exact absurd rfl (unwrapped hw)
  · rfl

theorem afterBackslash_wrapped {word content rest : List Char} (nonempty : word ≠ [])
    (alphas : ∀ c ∈ word, c.isAlpha = true)
    (wrapper : Token.wrapperCommands.contains (String.ofList word) = true)
    (flat : ∀ c ∈ content, isBrace c = false) :
    afterBackslash (word ++ '{' :: (content ++ '}' :: rest)) = wrapped word content := by
  have hflat : ∀ c ∈ content, (c != '{' && c != '}') = true :=
    fun c hc => not_brace_iff.2 (flat c hc)
  obtain ⟨ht, hd⟩ := takeWhile_of_all (b := '{' :: (content ++ '}' :: rest)) alphas
    (by simp)
  obtain ⟨ht', hd'⟩ := takeWhile_of_all (b := '}' :: rest) hflat (by simp)
  simp only [afterBackslash, ht, hd, if_neg nonempty, wrapper, ht', hd']

theorem afterBackslash_spacing {c : Char} {rest : List Char} (mark : c ∈ spacingMarks) :
    afterBackslash (c :: rest) = spacing ['\\', c] := by
  have halpha := not_alpha_of_spacing mark
  simp [afterBackslash, halpha, mark]

theorem scan_of_backslash (cs : List Char) : scan '\\' cs = afterBackslash cs := by
  simp [scan]

theorem scan_single {c : Char} {cs : List Char} (hdigit : c.isDigit = false)
    (halpha : c.isAlpha = false) (hpoint : c ≠ '.') (hslash : c ≠ '\\') (hpi : c ≠ 'π')
    (hcompare : c = '<' ∨ c = '>' → cs.head? ≠ some '=') :
    scan c cs =
      if skippedMarks.contains c then
        spacing [c]
      else
        match Token.markCharacters.lookup c with
        | some kind => mark kind [c]
        | none => unexpected c := by
  simp only [scan, hdigit, halpha, Bool.false_eq_true, if_false]
  split
  · exact absurd rfl hpoint
  · exact absurd rfl hslash
  · exact absurd rfl (hcompare (.inl rfl))
  · exact absurd rfl (hcompare (.inr rfl))
  · exact absurd rfl hpi
  · rfl

theorem fraction_eq_nil {rest : List Char} (h : ∀ c ∈ rest.head?, c ≠ '.') :
    fraction rest = [] := by
  unfold fraction
  split
  · next inner => exact absurd rfl (h '.' rfl)
  · rfl

theorem scan_integer {c : Char} {ds rest : List Char} (digits : ∀ x ∈ c :: ds, x.isDigit = true)
    (stop : ∀ x ∈ rest.head?, x.isDigit = false ∧ x ≠ '.') :
    scan c (ds ++ rest) = number (c :: ds) := by
  obtain ⟨hc, hds⟩ := List.forall_mem_cons.1 digits
  obtain ⟨ht, hd⟩ := takeWhile_of_all hds fun x hx => (stop x hx).1
  have hfraction : fraction rest = [] := fraction_eq_nil fun x hx => (stop x hx).2
  simp [scan, hc, ht, hd, hfraction]

theorem scan_decimal {c : Char} {ds fs rest : List Char}
    (digits : ∀ x ∈ c :: ds, x.isDigit = true) (decimals : ∀ x ∈ fs, x.isDigit = true)
    (stop : ∀ x ∈ rest.head?, x.isDigit = false) :
    scan c (ds ++ '.' :: (fs ++ rest)) = number (c :: ds ++ '.' :: fs) := by
  obtain ⟨hc, hds⟩ := List.forall_mem_cons.1 digits
  obtain ⟨hfs, -⟩ := takeWhile_of_all decimals stop
  obtain ⟨ht, hd⟩ := takeWhile_of_all (b := '.' :: (fs ++ rest)) hds (by simp [isDigit_point])
  simp only [scan, hc, if_true, ht, hd, fraction, hfs, List.cons_append]

theorem scan_point {fs rest : List Char} (nonempty : fs ≠ [])
    (decimals : ∀ x ∈ fs, x.isDigit = true) (stop : ∀ x ∈ rest.head?, x.isDigit = false) :
    scan '.' (fs ++ rest) = number ('.' :: fs) := by
  obtain ⟨hfs, -⟩ := takeWhile_of_all decimals stop
  cases fs with
  | nil => exact absurd rfl nonempty
  | cons x fs =>
    have hx : x.isDigit = true := decimals x List.mem_cons_self
    simp only [List.cons_append] at hfs
    simp [scan, isDigit_point, hx, fraction, hfs]

theorem scan_of_starts {l : Lexeme} {c : Char} {cs rest : List Char}
    (h : Starts l (c :: cs) rest) : scan c cs = l := by
  generalize hcs : c :: cs = text at h
  cases h with
  | @integer ds rest nonempty digits stop =>
    cases ds with
    | nil => exact absurd rfl nonempty
    | cons x ds =>
      obtain ⟨rfl, rfl⟩ : c = x ∧ cs = ds ++ rest := by simpa using hcs
      exact scan_integer digits stop
  | @decimal ds fs rest digits decimals nonempty stop =>
    cases ds with
    | nil =>
      obtain ⟨rfl, rfl⟩ : c = '.' ∧ cs = fs ++ rest := by simpa using hcs
      exact scan_point (nonempty.resolve_left (· rfl)) decimals stop
    | cons x ds =>
      obtain ⟨rfl, rfl⟩ : c = x ∧ cs = ds ++ '.' :: (fs ++ rest) := by simpa using hcs
      exact scan_decimal digits decimals stop
  | letter alpha =>
    obtain ⟨rfl, rfl⟩ := List.cons.inj hcs
    simp [scan, isDigit_of_isAlpha alpha, alpha]
  | literalOpen | literalClose =>
    obtain ⟨rfl, rfl⟩ := List.cons.inj hcs
    rw [scan_of_backslash]
    rfl
  | @escapedSpacing x rest mark =>
    obtain ⟨rfl, rfl⟩ := List.cons.inj hcs
    rw [scan_of_backslash, afterBackslash_spacing mark]
  | @command name rest nonempty alphas stop unwrapped =>
    obtain ⟨rfl, rfl⟩ : c = '\\' ∧ cs = name ++ rest := by simpa using hcs
    rw [scan_of_backslash, afterBackslash_command nonempty alphas stop unwrapped]
  | @wrapped word content rest nonempty alphas wrapper flat =>
    obtain ⟨rfl, rfl⟩ : c = '\\' ∧ cs = word ++ '{' :: (content ++ '}' :: rest) := by
      simpa using hcs
    rw [scan_of_backslash, afterBackslash_wrapped nonempty alphas wrapper flat]
  | lessEqual | greaterEqual =>
    obtain ⟨rfl, rfl⟩ := List.cons.inj hcs
    rfl
  | pi =>
    obtain ⟨rfl, rfl⟩ := List.cons.inj hcs
    rfl
  | @skipped x rest mark =>
    obtain ⟨rfl, rfl⟩ := List.cons.inj hcs
    obtain ⟨hdigit, halpha, hpoint, hslash, hless, hgreater, hpi⟩ := plain_of_skipped mark
    rw [scan_single hdigit halpha hpoint hslash hpi (by simp [hless, hgreater])]
    simp [mark]
  | @mark x kind rest known stop =>
    obtain ⟨rfl, rfl⟩ := List.cons.inj hcs
    obtain ⟨hdigit, halpha, hpoint, hslash, hpi, hskip⟩ := plain_of_mark known
    rw [scan_single hdigit halpha hpoint hslash hpi stop]
    simp [hskip, known]

theorem starts_of_number {c : Char} {cs : List Char} (hc : c.isDigit = true) :
    ∃ rest, Starts (scan c cs) (c :: cs) rest := by
  have hdigits : ∀ x ∈ c :: cs.takeWhile Char.isDigit, x.isDigit = true := by
    intro x hx
    rcases List.mem_cons.1 hx with rfl | hx
    · exact hc
    · exact all_takeWhile _ _ x hx
  have hcs : cs = cs.takeWhile Char.isDigit ++ cs.dropWhile Char.isDigit :=
    List.takeWhile_append_dropWhile.symm
  have hstop := head_dropWhile Char.isDigit cs
  simp only [scan, hc, if_true]
  generalize cs.takeWhile Char.isDigit = ds at *
  generalize cs.dropWhile Char.isDigit = rest at *
  subst hcs
  unfold fraction
  split
  · next inner =>
    refine ⟨inner.dropWhile Char.isDigit, ?_⟩
    have h := Starts.decimal hdigits (all_takeWhile Char.isDigit inner) (.inl (by simp))
      (head_dropWhile Char.isDigit inner)
    simpa using h
  · next hpoint =>
    refine ⟨rest, ?_⟩
    have h := @Starts.integer _ rest (by simp) hdigits fun x hx => ⟨hstop x hx, ?_⟩
    · simpa using h
    · rintro rfl
      obtain ⟨inner, rfl⟩ := List.head?_eq_some_iff.1 hx
      exact hpoint inner rfl

theorem not_isLegal_unexpected (c : Char) : ¬(unexpected c).IsLegal := by
  rintro ⟨m, hm⟩
  simp [meaning] at hm

theorem not_isLegal_unterminated (word content : List Char) :
    ¬(unterminated word content).IsLegal := by
  rintro ⟨m, hm⟩
  simp [meaning] at hm

theorem starts_of_wrapper {word inner : List Char} (nonempty : word ≠ [])
    (alphas : ∀ c ∈ word, c.isAlpha = true)
    (wrapper : Token.wrapperCommands.contains (String.ofList word) = true)
    (hl : (afterBackslash (word ++ '{' :: inner)).IsLegal) :
    ∃ rest, Starts (afterBackslash (word ++ '{' :: inner)) ('\\' :: (word ++ '{' :: inner)) rest := by
  obtain ⟨ht, hd⟩ := takeWhile_of_all (b := '{' :: inner) alphas (by simp)
  have hflat := all_takeWhile (fun c => c != '{' && c != '}') inner
  have hinner := (@List.takeWhile_append_dropWhile _ (fun c => c != '{' && c != '}') inner).symm
  generalize hcontent : inner.takeWhile (fun c => c != '{' && c != '}') = content at hflat hinner
  generalize hrest : inner.dropWhile (fun c => c != '{' && c != '}') = rest at hinner
  by_cases hclosed : ∃ rest', rest = '}' :: rest'
  · obtain ⟨rest', rfl⟩ := hclosed
    have hflat' : ∀ c ∈ content, isBrace c = false := fun c hc => not_brace_iff.1 (hflat c hc)
    rw [hinner, afterBackslash_wrapped nonempty alphas wrapper hflat']
    have h := @Starts.wrapped _ _ rest' nonempty alphas wrapper hflat'
    exact ⟨rest', by simpa using h⟩
  · refine absurd hl ?_
    have : afterBackslash (word ++ '{' :: inner) = unterminated word content := by
      simp only [afterBackslash, ht, hd, if_neg nonempty, wrapper, hcontent, hrest]
      split
      · next rest' => exact absurd ⟨rest', rfl⟩ hclosed
      · rfl
    rw [this]
    exact not_isLegal_unterminated _ _

theorem starts_of_backslash {cs : List Char} (hl : (afterBackslash cs).IsLegal) :
    ∃ rest, Starts (afterBackslash cs) ('\\' :: cs) rest := by
  have alphas := all_takeWhile Char.isAlpha cs
  have stop := head_dropWhile Char.isAlpha cs
  have hcs : cs = cs.takeWhile Char.isAlpha ++ cs.dropWhile Char.isAlpha :=
    List.takeWhile_append_dropWhile.symm
  by_cases hname : cs.takeWhile Char.isAlpha = []
  · simp only [afterBackslash, hname, if_true] at hl ⊢
    split
    · exact ⟨_, .literalOpen⟩
    · exact ⟨_, .literalClose⟩
    · next c rest hopen hclose =>
      by_cases hmark : spacingMarks.contains c = true
      · rw [if_pos hmark]
        exact ⟨rest, .escapedSpacing (by simpa using hmark)⟩
      · simp only [if_neg hmark] at hl
        exact absurd hl (not_isLegal_unexpected _)
    · exact absurd hl (not_isLegal_unexpected _)
  · generalize cs.takeWhile Char.isAlpha = name at *
    generalize cs.dropWhile Char.isAlpha = rest at *
    subst hcs
    by_cases hwrapped : Token.wrapperCommands.contains (String.ofList name) = true ∧
        rest.head? = some '{'
    · obtain ⟨hw, hrest⟩ := hwrapped
      obtain ⟨inner, rfl⟩ := List.head?_eq_some_iff.1 hrest
      exact starts_of_wrapper hname alphas hw hl
    · have unwrapped := fun hw hrest => hwrapped ⟨hw, hrest⟩
      rw [afterBackslash_command hname alphas stop unwrapped]
      exact ⟨rest, .command hname alphas stop unwrapped⟩

theorem starts_of_point {cs : List Char} (hl : (scan '.' cs).IsLegal) :
    ∃ rest, Starts (scan '.' cs) ('.' :: cs) rest := by
  by_cases hd : ∃ d rest, cs = d :: rest ∧ d.isDigit = true
  · obtain ⟨d, rest, hcs, hd⟩ := hd
    have hscan : scan '.' cs = number ([] ++ '.' :: cs.takeWhile Char.isDigit) := by
      subst hcs
      simp [scan, isDigit_point, hd, fraction]
    have h := @Starts.decimal [] _ _ (by simp) (all_takeWhile Char.isDigit cs)
      (.inr (by simp [hcs, hd])) (head_dropWhile Char.isDigit cs)
    refine ⟨cs.dropWhile Char.isDigit, ?_⟩
    rw [hscan]
    simpa using h
  · have hscan : scan '.' cs = unexpected '.' := by
      cases cs with
      | nil => rfl
      | cons d rest =>
        have hd : d.isDigit = false := by simpa using fun h => hd ⟨d, rest, rfl, h⟩
        simp [scan, isDigit_point, hd]
    rw [hscan] at hl
    exact absurd hl (not_isLegal_unexpected _)

/-- What is scanned starts the text, when it means something. -/
theorem starts_of_scan {c : Char} {cs : List Char} (hl : (scan c cs).IsLegal) :
    ∃ rest, Starts (scan c cs) (c :: cs) rest := by
  by_cases hdigit : c.isDigit = true
  · exact starts_of_number hdigit
  by_cases halpha : c.isAlpha = true
  · have : scan c cs = letter c := by simp [scan, hdigit, halpha]
    exact ⟨cs, this ▸ .letter halpha⟩
  by_cases hpoint : c = '.'
  · subst hpoint
    exact starts_of_point hl
  by_cases hslash : c = '\\'
  · subst hslash
    rw [scan_of_backslash] at hl ⊢
    exact starts_of_backslash hl
  by_cases hpi : c = 'π'
  · subst hpi
    exact ⟨cs, .pi⟩
  by_cases hequal : (c = '<' ∨ c = '>') ∧ cs.head? = some '='
  · obtain ⟨rfl | rfl, hcs⟩ := hequal
    · obtain ⟨rest, rfl⟩ := List.head?_eq_some_iff.1 hcs
      exact ⟨rest, .lessEqual⟩
    · obtain ⟨rest, rfl⟩ := List.head?_eq_some_iff.1 hcs
      exact ⟨rest, .greaterEqual⟩
  have hscan : scan c cs = _ := scan_single (by simpa using hdigit) (by simpa using halpha) hpoint
    hslash hpi fun h he => hequal ⟨h, he⟩
  rw [hscan] at hl ⊢
  by_cases hskipped : skippedMarks.contains c = true
  · rw [if_pos hskipped]
    exact ⟨cs, .skipped (by simpa using hskipped)⟩
  rw [if_neg hskipped] at hl ⊢
  cases hkind : Token.markCharacters.lookup c with
  | some kind => exact ⟨cs, .mark hkind fun h he => hequal ⟨h, he⟩⟩
  | none =>
    simp only [hkind] at hl
    exact absurd hl (not_isLegal_unexpected _)

end Lexeme

end AnswerKey

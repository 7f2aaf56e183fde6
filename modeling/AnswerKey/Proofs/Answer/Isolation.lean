import AnswerKey.Answer.Boxed
import AnswerKey.Proofs.Answer.Boxing
import AnswerKey.Proofs.Token.Edges

/-! The box that is found in a text by its characters, and the lexemes there. -/
namespace AnswerKey

open Lexeme (IsLegal Reads Silent Starts isBrace row tokensFrom)

theorem Lexeme.Reads.of_starts {l : Lexeme} {cs rest : List Char} {ls : List Lexeme}
    (h : Reads cs ls) (hs : Starts l cs rest) : ∃ ms, ls = l :: ms ∧ Reads rest ms := by
  cases h with
  | nil => exact absurd hs.text (by simp [hs.text_ne_nil])
  | @cons m ms _ rest' starts legal more =>
    cases cs with
    | nil => exact absurd hs.text (by simp [hs.text_ne_nil])
    | cons c cs =>
      obtain rfl : l = m := by rw [← scan_of_starts hs, scan_of_starts starts]
      obtain rfl : rest = rest' := List.append_cancel_left (hs.text.symm.trans starts.text)
      exact ⟨ms, rfl, more⟩

namespace Answer

def beforeBox? : List Char → Option (List Char)
  | [] => none
  | c :: rest =>
    if (boxHere? (c :: rest)).isSome then some [] else (beforeBox? rest).map (c :: ·)

theorem beforeBox?_eq_none {cs : List Char} (h : firstBox? cs = none) : beforeBox? cs = none := by
  induction cs with
  | nil => rfl
  | cons c rest ih =>
    cases hbox : boxHere? (c :: rest) with
    | some m => simp [firstBox?, hbox] at h
    | none =>
      have h : firstBox? rest = none := by simpa [firstBox?, hbox] using h
      simp [beforeBox?, hbox, ih h]

theorem beforeBox?_eq_some {cs contents : List Char} (h : firstBox? cs = some contents) :
    ∃ pre suf, cs = pre ++ suf ∧ beforeBox? cs = some pre ∧ boxHere? suf = some contents := by
  induction cs with
  | nil => cases h
  | cons c rest ih =>
    cases hbox : boxHere? (c :: rest) with
    | some m =>
      obtain rfl : m = contents := by simpa [firstBox?, hbox] using h
      exact ⟨[], c :: rest, rfl, by simp [beforeBox?, hbox], hbox⟩
    | none =>
      have h : firstBox? rest = some contents := by simpa [firstBox?, hbox] using h
      obtain ⟨pre, suf, rfl, hpre, hsuf⟩ := ih h
      exact ⟨c :: pre, suf, rfl, by simp [beforeBox?, hbox, hpre], hsuf⟩

theorem boxHere?_eq_some {cs contents : List Char} (h : boxHere? cs = some contents) :
    ∃ word ∈ boxCommands, ∃ tail inner, cs = word ++ tail ∧
      tail.dropWhile Text.isBlank = '{' :: inner ∧ untilClose 0 inner = some contents := by
  obtain ⟨word, hword, hcontents⟩ := List.exists_of_findSome?_eq_some h
  split at hcontents
  · next hprefix =>
    obtain ⟨tail, rfl⟩ := List.isPrefixOf_iff_prefix.1 hprefix
    rw [List.drop_left] at hcontents
    unfold contentsAfter? at hcontents
    split at hcontents
    · next inner hinner => exact ⟨word, hword, tail, inner, rfl, hinner, hcontents⟩
    · cases hcontents
  · cases hcontents

/-! Lexemes and braces. -/

theorem untilClose_plain {cs : List Char} (h : ∀ c ∈ cs, c ≠ '\\' ∧ isBrace c = false)
    (depth : Nat) (rest : List Char) :
    untilClose depth (cs ++ rest) = (untilClose depth rest).map (cs ++ ·) := by
  induction cs with
  | nil => simp
  | cons c cs ih =>
    obtain ⟨hslash, hbrace⟩ := h c List.mem_cons_self
    simp only [isBrace, Bool.or_eq_false_iff, decide_eq_false_iff_not] at hbrace
    have hstep : untilClose depth (c :: (cs ++ rest)) =
        (untilClose depth (cs ++ rest)).map (c :: ·) := by
      rw [untilClose]
      · exact fun h => absurd h hslash
      · exact fun _ _ h => absurd h hslash
      · exact fun h => absurd h hbrace.1
      · exact fun h => absurd h hbrace.2
    rw [List.cons_append, hstep, ih fun x hx => h x (List.mem_cons_of_mem c hx), Option.map_map]
    rfl

def isCurly (kind : Token.Kind) : Bool := kind = .opening .curly || kind = .closing .curly

def meansCurly : Token.Meaning → Bool
  | .nothing => false
  | .mark kind | .named kind _ => isCurly kind

/-- The braces of a lexeme: it is one, or those in it are passed over. -/
inductive Bracing (l : Lexeme) : Prop
  | opening (h : l = .mark (.opening .curly) ['{'])
  | closing (h : l = .mark (.closing .curly) ['}'])
  | neutral (passed : ∀ depth rest,
        untilClose depth (l.text ++ rest) = (untilClose depth rest).map (l.text ++ ·))
      (tokens : ∀ p, ∀ t ∈ (l.tokens p).toOption.getD [], isCurly t.kind = false)

theorem untilClose_backslash (depth : Nat) (c : Char) (rest : List Char) :
    untilClose depth ('\\' :: c :: rest) = (untilClose depth rest).map ('\\' :: c :: ·) := by
  simp [untilClose]

theorem untilClose_opening (depth : Nat) (rest : List Char) :
    untilClose depth ('{' :: rest) = (untilClose (depth + 1) rest).map ('{' :: ·) := by
  simp [untilClose]

theorem untilClose_closing (depth : Nat) (rest : List Char) :
    untilClose (depth + 1) ('}' :: rest) = (untilClose depth rest).map ('}' :: ·) := by
  simp [untilClose]

theorem not_curly_of_command {name : String} {m : Token.Meaning}
    (h : Token.command? name = some m) : meansCurly m = false := by
  have marks : ∀ e ∈ Token.markCommands, isCurly e.2 = false := by decide
  cases Token.commandMeans h with
  | layout | letter | function => rfl
  | mark known => exact marks _ known

theorem not_curly_of_wrappedWord {word : String} {m : Token.Meaning}
    (h : Token.wrappedWord? word = some m) : meansCurly m = false := by
  cases Token.wordMeans h <;> rfl

theorem not_curly_of_meaning {l : Lexeme}
    (h : ∀ p m, l.meaning p = .ok m → meansCurly m = false) (p : Nat) :
    ∀ t ∈ (l.tokens p).toOption.getD [], isCurly t.kind = false := by
  intro t ht
  cases hts : l.tokens p with
  | error e => simp [hts, Except.toOption] at ht
  | ok ts =>
    have ht : t ∈ ts := by simpa [hts, Except.toOption] using ht
    obtain ⟨hm, -⟩ | hm := Lexeme.meaning_of_mem_tokens hts ht
    · exact h p _ hm
    · exact h p _ hm

theorem untilClose_escaped {c : Char} {cs : List Char}
    (h : ∀ c ∈ cs, c ≠ '\\' ∧ isBrace c = false) (depth : Nat) (rest : List Char) :
    untilClose depth ('\\' :: c :: cs ++ rest) =
      (untilClose depth rest).map ('\\' :: c :: cs ++ ·) := by
  rw [List.cons_append, List.cons_append, untilClose_backslash, untilClose_plain h, Option.map_map]
  rfl

def isCurlyMark : Lexeme → Bool
  | .mark kind _ => isCurly kind
  | _ => false

theorem not_curly_of_mark {l : Lexeme} (hmark : isCurlyMark l = false) {p : Nat}
    {m : Token.Meaning} (hm : l.meaning p = .ok m) : meansCurly m = false := by
  cases l with
  | number | spacing | pi =>
    cases hm
    rfl
  | letter c =>
    simp only [Lexeme.meaning, Except.ok.injEq] at hm
    subst hm
    show isCurly (if c = 'd' then _ else _) = false
    split <;> rfl
  | command name => exact not_curly_of_command (Lexeme.meaning_command.1 hm)
  | wrapped word content => exact not_curly_of_wrappedWord (Lexeme.meaning_wrapped.1 hm)
  | mark kind cs =>
    cases hm
    exact hmark
  | unterminated | unexpected => cases hm

theorem bracing_of_passed {l : Lexeme}
    (passed : ∀ depth rest,
      untilClose depth (l.text ++ rest) = (untilClose depth rest).map (l.text ++ ·))
    (hmark : isCurlyMark l = false) : Bracing l :=
  .neutral passed (not_curly_of_meaning fun _ _ => not_curly_of_mark hmark)

theorem plain_of_class {p : Char → Bool} (hslash : p '\\' = false) (hopen : p '{' = false)
    (hclose : p '}' = false) {c : Char} (h : p c = true) : c ≠ '\\' ∧ isBrace c = false := by
  refine ⟨?_, ?_⟩
  · rintro rfl
    simp [hslash] at h
  · simp only [isBrace, Bool.or_eq_false_iff, decide_eq_false_iff_not]
    constructor <;> rintro rfl <;> simp_all

theorem plain_of_isDigit {c : Char} (h : c.isDigit = true) : c ≠ '\\' ∧ isBrace c = false :=
  plain_of_class (by decide) (by decide) (by decide) h

theorem plain_of_isAlpha {c : Char} (h : c.isAlpha = true) : c ≠ '\\' ∧ isBrace c = false :=
  plain_of_class (by decide) (by decide) (by decide) h

theorem bracing_of_wrapped {word content : List Char} (nonempty : word ≠ [])
    (alphas : ∀ c ∈ word, c.isAlpha = true) (flat : ∀ c ∈ content, isBrace c = false)
    (hl : (Lexeme.wrapped word content).IsLegal) : Bracing (.wrapped word content) := by
  cases word with
  | nil => exact absurd rfl nonempty
  | cons c word =>
    have hword : ∀ x ∈ word, x ≠ '\\' ∧ isBrace x = false :=
      fun x hx => plain_of_isAlpha (alphas x (List.mem_cons_of_mem c hx))
    have hcontent : ∀ x ∈ content, x ≠ '\\' ∧ isBrace x = false :=
      fun x hx => ⟨Lexeme.not_mem_of_wrapped hl x hx, flat x hx⟩
    refine bracing_of_passed (fun depth rest => ?_) rfl
    have htext : (Lexeme.wrapped (c :: word) content).text ++ rest =
        '\\' :: c :: word ++ '{' :: (content ++ '}' :: rest) := by
      simp [Lexeme.text]
    rw [htext, untilClose_escaped hword, untilClose_opening, untilClose_plain hcontent,
      untilClose_closing]
    simp [Lexeme.text, Function.comp_def]

theorem bracing_of_mark {c : Char} {kind : Token.Kind}
    (known : Token.markCharacters.lookup c = some kind) : Bracing (.mark kind [c]) := by
  have curly : ∀ e ∈ Token.markCharacters, (e.2 = .opening .curly → e.1 = '{') ∧
      (e.2 = .closing .curly → e.1 = '}') ∧ (isCurly e.2 = false → isBrace e.1 = false) := by
    decide
  obtain ⟨hopen, hclose, hplain⟩ := curly _ (mem_of_lookup known)
  by_cases ho : kind = .opening .curly
  · obtain rfl : c = '{' := hopen ho
    exact .opening (ho ▸ rfl)
  by_cases hc : kind = .closing .curly
  · obtain rfl : c = '}' := hclose hc
    exact .closing (hc ▸ rfl)
  have hkind : isCurly kind = false := by simp [isCurly, ho, hc]
  refine bracing_of_passed (untilClose_plain ?_) hkind
  simpa [Lexeme.text] using ⟨(Lexeme.plain_of_mark known).2.2.2.1, hplain hkind⟩

theorem bracing_of_starts {l : Lexeme} {cs rest : List Char} (h : Starts l cs rest)
    (hl : l.IsLegal) : Bracing l := by
  cases h with
  | integer nonempty digits stop =>
    exact bracing_of_passed (untilClose_plain fun c hc => plain_of_isDigit (digits c hc)) rfl
  | decimal digits decimals nonempty stop =>
    refine bracing_of_passed (untilClose_plain fun c hc => ?_) rfl
    simp only [Lexeme.text, List.mem_append, List.mem_cons] at hc
    obtain hc | rfl | hc := hc
    · exact plain_of_isDigit (digits c hc)
    · decide
    · exact plain_of_isDigit (decimals c hc)
  | letter h =>
    exact bracing_of_passed (untilClose_plain (by simpa [Lexeme.text] using plain_of_isAlpha h)) rfl
  | literalOpen | literalClose | escapedSpacing =>
    exact bracing_of_passed (untilClose_escaped (by simp)) rfl
  | @command name _ nonempty alphas stop unwrapped =>
    cases name with
    | nil => exact absurd rfl nonempty
    | cons c word =>
      exact bracing_of_passed (untilClose_escaped fun x hx =>
        plain_of_isAlpha (alphas x (List.mem_cons_of_mem c hx))) rfl
  | wrapped nonempty alphas wrapper flat => exact bracing_of_wrapped nonempty alphas flat hl
  | lessEqual | greaterEqual | pi =>
    exact bracing_of_passed (untilClose_plain (Text.forall_of_all (by decide))) rfl
  | @skipped c _ mark =>
    have skipped : ∀ c ∈ Lexeme.skippedMarks, c ≠ '\\' ∧ isBrace c = false :=
      Text.forall_of_all (by decide)
    exact bracing_of_passed (untilClose_plain (by simpa [Lexeme.text] using skipped c mark)) rfl
  | mark known stop => exact bracing_of_mark known

theorem bracesAfter_not_curly {ts : List Token} (h : ∀ t ∈ ts, isCurly t.kind = false)
    (depth : Nat) (rest : List Token) : bracesAfter depth (ts ++ rest) = bracesAfter depth rest := by
  induction ts with
  | nil => rfl
  | cons t ts ih =>
    have ht := h t List.mem_cons_self
    simp only [isCurly, Bool.or_eq_false_iff, decide_eq_false_iff_not] at ht
    rw [List.cons_append, bracesAfter_other ht.1 ht.2]
    exact ih fun u hu => h u (List.mem_cons_of_mem t hu)

def closeBrace : Lexeme := .mark (.closing .curly) ['}']

theorem exists_close {cs : List Char} {ls : List Lexeme} (h : Reads cs ls) {depth : Nat}
    {contents : List Char} (hc : untilClose depth cs = some contents) :
    ∃ ms ns, ls = ms ++ closeBrace :: ns ∧ row ms = contents ∧
      ∀ p further, bracesAfter (depth + further) (tokensFrom p ms) = some further := by
  induction h generalizing depth contents with
  | nil => simp [untilClose] at hc
  | @cons l ls cs rest starts legal more ih =>
    rw [starts.text] at hc
    cases bracing_of_starts starts legal with
    | opening hl =>
      subst hl
      change untilClose depth ('{' :: rest) = some contents at hc
      rw [untilClose_opening, Option.map_eq_some_iff] at hc
      obtain ⟨contents, hc, rfl⟩ := hc
      obtain ⟨ms, ns, rfl, rfl, hbraces⟩ := ih hc
      refine ⟨_ :: ms, ns, rfl, rfl, fun p further => ?_⟩
      change bracesAfter (depth + further) (_ :: tokensFrom _ ms) = _
      rw [bracesAfter_opening rfl, Nat.add_right_comm]
      exact hbraces _ further
    | closing hl =>
      subst hl
      change untilClose depth ('}' :: rest) = some contents at hc
      cases depth with
      | zero =>
        obtain rfl : [] = contents := by simpa [untilClose] using hc
        exact ⟨[], ls, rfl, rfl, fun p further => by simp [tokensFrom, bracesAfter]⟩
      | succ depth =>
        rw [untilClose_closing, Option.map_eq_some_iff] at hc
        obtain ⟨contents, hc, rfl⟩ := hc
        obtain ⟨ms, ns, rfl, rfl, hbraces⟩ := ih hc
        refine ⟨_ :: ms, ns, rfl, rfl, fun p further => ?_⟩
        change bracesAfter (depth + 1 + further) (_ :: tokensFrom _ ms) = _
        rw [Nat.add_right_comm, bracesAfter_closing rfl]
        exact hbraces _ further
    | neutral passed tokens =>
      rw [passed, Option.map_eq_some_iff] at hc
      obtain ⟨contents, hc, rfl⟩ := hc
      obtain ⟨ms, ns, rfl, rfl, hbraces⟩ := ih hc
      refine ⟨l :: ms, ns, rfl, rfl, fun p further => ?_⟩
      rw [tokensFrom, bracesAfter_not_curly (tokens p)]
      exact hbraces _ further

def openBrace : Lexeme := .mark (.opening .curly) ['{']

theorem exists_contents {ls : List Lexeme} {inner contents : List Char}
    (h : Reads ('{' :: inner) ls) (hc : untilClose 0 inner = some contents) :
    ∃ ms ns, ls = openBrace :: (ms ++ closeBrace :: ns) ∧ row ms = contents ∧
      ∀ p, Paired (tokensFrom p ms) := by
  have hstarts : Starts openBrace ('{' :: inner) inner := .mark rfl (by simp)
  obtain ⟨ms, rfl, hms⟩ := h.of_starts hstarts
  obtain ⟨ms, ns, rfl, hrow, hbraces⟩ := exists_close hms hc
  exact ⟨ms, ns, rfl, hrow, fun p depth => by simpa using hbraces p depth⟩

def boxRow (name : List Char) (gap ms : List Lexeme) : List Lexeme :=
  .command name :: (gap ++ openBrace :: (ms ++ [closeBrace]))

def boxNames : List (List Char) := ["boxed".toList, "fbox".toList]

theorem exists_boxName {word : List Char} (h : word ∈ boxCommands) :
    ∃ name ∈ boxNames, word = '\\' :: name := by
  obtain ⟨name, hname, rfl⟩ := List.mem_map.1 (show word ∈ boxNames.map ('\\' :: ·) from h)
  exact ⟨name, hname, rfl⟩

theorem alpha_of_boxName : ∀ name ∈ boxNames, 2 ≤ name.length ∧ ∀ c ∈ name, c.isAlpha = true :=
  List.forall_mem_cons.2 ⟨⟨by decide, Text.forall_of_all (by decide)⟩,
    List.forall_mem_singleton.2 ⟨by decide, Text.forall_of_all (by decide)⟩⟩

theorem tokens_of_boxName {name : List Char} (h : name ∈ boxNames) : ∃ text, ∀ p,
    (Lexeme.command name).tokens p =
      .ok [⟨.boxed, text, p, p + Text.size (Lexeme.command name).text⟩] := by
  simp only [boxNames, List.mem_cons, List.not_mem_nil, or_false] at h
  obtain rfl | rfl := h
  · exact ⟨_, fun p => rfl⟩
  · exact ⟨_, fun p => rfl⟩

/-- A box that starts where a lexeme starts is one for the lexemes too. -/
theorem exists_boxRow {cs contents : List Char} {ls : List Lexeme} (h : Reads cs ls)
    (hbox : boxHere? cs = some contents) :
    ∃ name ∈ boxNames, ∃ gap ms ns, ls = boxRow name gap ms ++ ns ∧ Silent gap ∧
      row ms = contents ∧ ∀ p, Paired (tokensFrom p ms) := by
  obtain ⟨word, hword, tail, inner, rfl, htail, hc⟩ := boxHere?_eq_some hbox
  -- What comes next is a blank or the brace, so the lexeme is no longer command.
  have hstop : ∀ c ∈ tail.head?, c.isAlpha = false := by
    intro c hhead
    cases tail with
    | nil => cases hhead
    | cons x tail =>
      obtain rfl : x = c := by simpa using hhead
      by_cases hx : Text.isBlank x = true
      · exact (Text.plain_of_blank hx).2.1
      · rw [List.dropWhile_cons_of_neg hx] at htail
        rw [(List.cons.inj htail).1]
        decide
  have hcommand : ∃ name ∈ boxNames, Starts (.command name) (word ++ tail) tail := by
    simp only [boxCommands, List.mem_cons, List.not_mem_nil, or_false] at hword
    obtain rfl | rfl := hword
    · exact ⟨_, List.mem_cons_self,
        .command (by decide) (Text.forall_of_all (by decide)) hstop fun hw => absurd hw (by decide)⟩
    · exact ⟨_, List.mem_cons_of_mem _ List.mem_cons_self,
        .command (by decide) (Text.forall_of_all (by decide)) hstop fun hw => absurd hw (by decide)⟩
  obtain ⟨name, hname, hstarts⟩ := hcommand
  obtain ⟨ms, rfl, hms⟩ := h.of_starts hstarts
  obtain ⟨gap, ns, rfl, hgap, hns⟩ := hms.dropWhile_blank
  have hright := hms.of_suffix
  rw [hns, htail] at hright
  obtain ⟨ms, ns, rfl, hrow, hpaired⟩ := exists_contents hright hc
  exact ⟨name, hname, gap, ms, ns, by simp [boxRow], hgap, hrow, hpaired⟩

end Answer

end AnswerKey

import AnswerKey.Proofs.Answer.BoxSearch
import AnswerKey.Proofs.Answer.FalseBox

/-! The contents that are found in a text whose tokens are a box: the text between
the braces that are taken off. -/
namespace AnswerKey

open Lexeme (Reads Starts row tokensFrom tokensFrom_one)

namespace Lexeme

theorem mem_boxNames {name : List Char} {m : Token.Meaning}
    (h : Token.command? (String.ofList name) = some m)
    (boxed : m = .mark .boxed ∨ ∃ text, m = .named .boxed text) : name ∈ Answer.boxNames := by
  have marks : ∀ e ∈ Token.markCommands, e.2 = .boxed → e.1.toList ∈ Answer.boxNames := by decide
  cases Token.commandMeans h with
  | layout | letter | function => simp at boxed
  | mark known => simpa using marks _ known (by simpa using boxed)

theorem not_boxed_of_wrappedWord {word : String} {m : Token.Meaning}
    (h : Token.wrappedWord? word = some m) :
    ¬(m = .mark .boxed ∨ ∃ text, m = .named .boxed text) := by
  cases Token.wordMeans h <;> simp

theorem command_of_boxed {l : Lexeme} {cs rest : List Char} {p : Nat} {t : Token}
    (h : Starts l cs rest) (hl : l.tokens p = .ok [t]) (boxed : t.kind = .boxed) :
    ∃ name ∈ Answer.boxNames, l = .command name := by
  obtain ⟨m, hm, hkind⟩ : ∃ m, l.meaning p = .ok m ∧
      (m = .mark .boxed ∨ ∃ text, m = .named .boxed text) := by
    obtain ⟨hm, -⟩ | hm := meaning_of_mem_tokens hl (List.mem_singleton_self t)
    · exact ⟨_, hm, .inl (by rw [boxed])⟩
    · exact ⟨_, hm, .inr ⟨_, by rw [boxed]⟩⟩
  cases h with
  | @command name => exact ⟨name, mem_boxNames (meaning_command.1 hm) hkind, rfl⟩
  | wrapped => exact absurd hkind (not_boxed_of_wrappedWord (meaning_wrapped.1 hm))
  | @mark c kind _ known =>
    have marks : ∀ e ∈ Token.markCharacters, e.2 ≠ .boxed := by decide
    cases hm
    exact absurd (by simpa using hkind) (marks (c, kind) (mem_of_lookup known))
  | letter =>
    simp only [meaning, Except.ok.injEq] at hm
    subst hm
    split at hkind <;> simp at hkind
  | _ =>
    cases hm
    simp at hkind

theorem Reads.starts {cs : List Char} {l : Lexeme} {ls : List Lexeme} (h : Reads cs (l :: ls)) :
    Starts l cs (row ls) := by
  cases h with
  | cons starts _ more => exact more.text ▸ starts

end Lexeme

namespace Answer

variable {cs : List Char} {ls : List Lexeme} {p depth depth' : Nat}

theorem untilClose_row (h : Reads cs ls) (hb : bracesAfter depth (tokensFrom p ls) = some depth')
    (rest : List Char) : untilClose depth (cs ++ rest) = (untilClose depth' rest).map (cs ++ ·) := by
  induction h generalizing p depth with
  | nil =>
    obtain rfl : depth = depth' := by simpa [tokensFrom, bracesAfter] using hb
    simp
  | @cons l ls cs behind starts legal more ih =>
    rw [starts.text, List.append_assoc]
    cases bracing_of_starts starts legal with
    | opening hl =>
      subst hl
      change bracesAfter depth (_ :: tokensFrom _ ls) = _ at hb
      rw [bracesAfter_opening rfl] at hb
      change untilClose depth ('{' :: (behind ++ rest)) = _
      rw [untilClose_opening, ih hb, Option.map_map]
      rfl
    | closing hl =>
      subst hl
      change bracesAfter depth (_ :: tokensFrom _ ls) = _ at hb
      change untilClose depth ('}' :: (behind ++ rest)) = _
      cases depth with
      | zero => simp [bracesAfter] at hb
      | succ depth =>
        rw [bracesAfter_closing rfl] at hb
        rw [untilClose_closing, ih hb, Option.map_map]
        rfl
    | neutral passed tokens =>
      rw [tokensFrom, bracesAfter_not_curly (tokens p)] at hb
      rw [passed, ih hb, Option.map_map]
      simp [Function.comp_def]

theorem brace_of_curly {l : Lexeme} {rest : List Char} {t : Token} (h : Starts l cs rest)
    (legal : l.IsLegal) (hl : l.tokens p = .ok [t]) :
    (t.kind = .opening .curly → l = openBrace) ∧ (t.kind = .closing .curly → l = closeBrace) := by
  cases bracing_of_starts h legal with
  | opening hopen =>
    subst hopen
    cases hl
    exact ⟨fun _ => rfl, nofun⟩
  | closing hclose =>
    subst hclose
    cases hl
    exact ⟨nofun, fun _ => rfl⟩
  | neutral _ tokens =>
    have hcurly := tokens p t (by simp [hl, Except.toOption])
    simp only [isCurly, Bool.or_eq_false_iff, decide_eq_false_iff_not] at hcurly
    exact ⟨fun hk => absurd hk hcurly.1, fun hk => absurd hk hcurly.2⟩

theorem exists_boxRow_of_tokens {first opened closed : Token} {inner : List Token} (h : Reads cs ls)
    (tokens : tokensFrom 0 ls = first :: opened :: (inner ++ [closed]))
    (hfirst : first.kind = .boxed) (hopened : opened.kind = .opening .curly)
    (hclosed : closed.kind = .closing .curly) :
    ∃ before name gap body after p,
      ls = before ++ .command name :: (gap ++ openBrace :: (body ++ closeBrace :: after)) ∧
      tokensFrom 0 before = [] ∧ name ∈ boxNames ∧ tokensFrom p body = inner ∧
      first.stop = Text.size (row (before ++ [.command name])) ∧
      opened.start = first.stop + Text.size (row gap) ∧
      opened.stop = opened.start + Text.size (row [openBrace]) ∧
      closed.start = opened.stop + Text.size (row body) := by
  obtain ⟨before, l, gap, l', body, l'', after, rfl, ⟨hbefore, -, -⟩, hl, hl', hbody, hl''⟩ :=
    exists_boxLexemes h.legal tokens
  have hrow := h.of_suffix
  obtain ⟨name, hname, rfl⟩ := Lexeme.command_of_boxed hrow.starts (hl.tokens 0) hfirst
  have hrow' := hrow.rest.of_suffix
  obtain rfl :=
    (brace_of_curly hrow'.starts (hrow'.legal l' List.mem_cons_self) (hl'.tokens 0)).1 hopened
  have hrow'' := hrow'.rest.of_suffix
  obtain rfl :=
    (brace_of_curly hrow''.starts (hrow''.legal l'' List.mem_cons_self) (hl''.tokens 0)).2 hclosed
  refine ⟨before, name, gap, body, after, _, rfl, hbefore 0, hname, hbody, ?_, hl'.start, ?_,
    hl''.start⟩
  · simp [hl.stop, hl.start]
  · simp [hl'.stop]

theorem exists_append_of_token {before ms ns us : List Lexeme} {l m : Lexeme}
    (hbefore : tokensFrom 0 before = []) (hm : ∀ q, m.tokens q ≠ .ok [])
    (legal : m.IsLegal) (heq : before ++ l :: us = ms ++ m :: ns) :
    ∃ xs, ms = before ++ xs ∧ l :: us = xs ++ m :: ns := by
  obtain ⟨xs, hms, hns⟩ | ⟨xs, hbefore', hns⟩ := List.append_eq_append_iff.1 heq
  · exact ⟨xs, hms, hns⟩
  · cases xs with
    | nil => exact ⟨[], by simpa using hbefore'.symm, hns.symm⟩
    | cons x xs =>
      obtain ⟨rfl, -⟩ := List.cons.inj hns
      obtain silent | ⟨kind, text, hleaves⟩ := Lexeme.tokens_eq_ok legal
      · exact absurd (silent 0) (hm 0)
      · rw [hbefore', Lexeme.tokensFrom_append, tokensFrom_one hleaves] at hbefore
        simp at hbefore

theorem noneBefore_of_tokens {before us : List Lexeme} {name : List Char}
    (h : Reads cs (before ++ .command name :: us)) (hbefore : tokensFrom 0 before = []) :
    NoneBefore cs (row before) := by
  intro before' after' hcs hlt contents box
  have hbox := boxHere?_iff.2 box
  obtain ⟨word, hword, gap, rest, rfl, -⟩ := box
  obtain ⟨letters, hletters, rfl⟩ := exists_boxName hword
  obtain ⟨ms, ns, -, hls, hms, hns⟩ | ⟨ms, ns, -, hls, hms, hns⟩ := h.at_backslash hcs
  · -- The box starts a lexeme, whose token comes before the first one.
    rw [hls] at h
    have hright := h.of_suffix
    rw [hns] at hright
    obtain ⟨name', hname', gap', ms', ns', rfl, -⟩ := exists_boxRow hright hbox
    obtain ⟨text, htokens⟩ := tokens_of_boxName hname'
    obtain ⟨xs, rfl, -⟩ := exists_append_of_token (m := .command name') hbefore
      (by simp [htokens]) (h.legal _ (by simp [boxRow])) hls
    rw [← hms, Lexeme.row_append, List.length_append] at hlt
    omega
  · -- Its backslash is behind another one, and its letters are tokens.
    rw [hls] at h
    have hright := h.of_suffix
    rw [hns] at hright
    obtain ⟨nonempty, alphas⟩ := alpha_of_boxName letters hletters
    obtain ⟨ns', rfl, -⟩ := reads_letters alphas hright
    obtain ⟨c, letters, rfl⟩ := @List.exists_cons_of_length_pos _ letters (by omega)
    obtain ⟨xs, rfl, hxs⟩ := exists_append_of_token (m := .letter c) hbefore
      (by simp [Lexeme.tokens, Lexeme.meaning, Except.map]) (h.legal _ (by simp)) hls
    cases xs with
    | nil => cases hxs
    | cons x xs =>
      obtain ⟨rfl, -⟩ := List.cons.inj hxs
      have hlength := congrArg List.length hms
      simp only [Lexeme.row_append, Lexeme.row_cons, Lexeme.text, List.length_append,
        List.length_cons, List.length_nil] at hlength
      omega

theorem isolated_of_tokens {first opened closed : Token} {inner : List Token} (h : Reads cs ls)
    (tokens : tokensFrom 0 ls = first :: opened :: (inner ++ [closed]))
    (hfirst : first.kind = .boxed) (hopened : opened.kind = .opening .curly)
    (hclosed : closed.kind = .closing .curly) (braces : bracesAfter 0 inner = some 0)
    (blank : ∀ c ∈ Text.slice first.stop opened.start cs, Text.isBlank c = true) :
    Isolated cs (Text.slice opened.stop closed.start cs) := by
  obtain ⟨before, name, gap, body, after, p, rfl, hbefore, hname, hbody, hstop, hstart, hstop',
    hstart'⟩ := exists_boxRow_of_tokens h tokens hfirst hopened hclosed
  have fromGap : Reads cs (before ++ [.command name] ++
      (gap ++ openBrace :: (body ++ closeBrace :: after))) := by
    rwa [List.append_assoc]
  have hgap : Text.slice first.stop opened.start cs = row gap := by
    rw [hstart, hstop]
    exact fromGap.slice_row
  have fromBody : Reads cs (before ++ [.command name] ++ gap ++ [openBrace] ++
      (body ++ closeBrace :: after)) := by
    simpa using h
  have hcontents : Text.slice opened.stop closed.start cs = row body := by
    have hsize : opened.stop =
        Text.size (row (before ++ [.command name] ++ gap ++ [openBrace])) := by
      rw [hstop', hstart, hstop]
      simp [Nat.add_assoc]
    rw [hstart', hsize]
    exact fromBody.slice_row
  have hreads : Reads (row body) body := fromBody.of_suffix.of_prefix
  have balanced : Balanced (row body) := by
    have closes : untilClose 0 (row body ++ ['}']) = some (row body) := by
      rw [untilClose_row hreads (hbody ▸ braces)]
      simp [untilClose]
    exact (untilClose_eq_some.1 closes).1
  rw [hcontents]
  rw [hgap] at blank
  refine .boxed (h.text.trans (Lexeme.row_append _ _)) ?_ (noneBefore_of_tokens h hbefore)
  exact ⟨'\\' :: name, List.mem_map_of_mem hname, row gap, row after,
    by simp [Lexeme.text, openBrace, closeBrace], blank, balanced⟩

/-- A text is isolated without a fault, and what is found are the contents of its
first box, or all of a text without boxes. Where the tokens of the text are a box
with only blanks between its command and its brace, it is the text between the two
braces that are taken off. -/
theorem isolate_contents (response : String) : ∃ contents,
    (∀ found, Isolated response.toList found ↔ found = contents) ∧
      isolate response = String.ofList (Text.trim contents) ∧
      Scan.isolate response = .ok (isolate response) ∧
      ∀ tokens inner limit stop, Token.lex response = .ok tokens →
        tokens.head?.map (·.kind) = some .boxed → unbox tokens limit = .ok (inner, stop) →
        ∃ first opened closed, tokens = first :: opened :: (inner ++ [closed]) ∧
          opened.kind = .opening .curly ∧ closed.kind = .closing .curly ∧
          ((∀ c ∈ Text.slice first.stop opened.start response.toList, Text.isBlank c = true) →
            contents = Text.slice opened.stop closed.start response.toList) := by
  refine ⟨(firstBox? response.toList).getD response.toList,
    fun found => isolated_iff.trans eq_comm, rfl, scan_isolate response, ?_⟩
  intro tokens inner limit stop hlex boxed hunbox
  obtain ⟨ls, hls, rfl⟩ := Token.lexFrom_eq_ok.1 hlex
  cases unbox_eq_ok.1 hunbox with
  | plain unboxed =>
    obtain ⟨t, ht, hk⟩ := Option.map_eq_some_iff.1 boxed
    exact absurd hk (unboxed t ht)
  | @boxed first opened closed _ htokens hfirst hopened hclosed braces =>
    exact ⟨first, opened, closed, htokens, hopened, hclosed, fun blank =>
      isolated_iff.1 (isolated_of_tokens hls htokens hfirst hopened hclosed braces blank)⟩

/-- A brace behind a backslash closes no box. -/
theorem isolate_contents_escaped_brace :
    Scan.isolate "$\\boxed \x7bπ\\\x7b \x7d$" = .ok "π\\\x7b" := by
  obtain ⟨contents, -, hisolate, hscan, hbox⟩ := isolate_contents "$\\boxed \x7bπ\\\x7b \x7d$"
  obtain ⟨first, opened, closed, htokens, -, -, hcontents⟩ := hbox _ _ 15 _ rfl rfl rfl
  cases htokens
  rw [hscan, hisolate, hcontents (Text.forall_of_all (by decide))]
  rfl

end Answer

end AnswerKey

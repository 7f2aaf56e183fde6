import AnswerKey.Proofs.Token.Lexemes

/-! Backslashes and blanks in a row of lexemes: a backslash starts a lexeme or
makes one with the backslash before it, and blanks around a row are lexemes of
their own but for a blank that is made a space by a backslash. -/
namespace AnswerKey

namespace Text

/-- Whether a backslash that is itself not made inert stands after the text. -/
def escapedAfter (escaped : Bool) (cs : List Char) : Bool :=
  cs.foldl (fun e c => c == '\\' && !e) escaped

def endsInEscape (cs : List Char) : Bool := escapedAfter false cs

@[simp] theorem escapedAfter_append (e : Bool) (a b : List Char) :
    escapedAfter e (a ++ b) = escapedAfter (escapedAfter e a) b := List.foldl_append

theorem escapedAfter_plain {cs : List Char} (h : ∀ c ∈ cs, c ≠ '\\') :
    escapedAfter false cs = false := by
  induction cs with
  | nil => rfl
  | cons c cs ih =>
    have hc := h c List.mem_cons_self
    simp only [escapedAfter, List.foldl_cons, Bool.not_false, Bool.and_true, beq_eq_false_iff_ne.2 hc]
    exact ih fun x hx => h x (List.mem_cons_of_mem c hx)

theorem mem_dropWhile {p : Char → Bool} {c : Char} {cs : List Char} (h : c ∈ cs)
    (hc : p c = false) : c ∈ cs.dropWhile p := by
  induction cs with
  | nil => simp at h
  | cons x cs ih =>
    by_cases hx : p x = true
    · rw [List.dropWhile_cons_of_pos hx]
      rcases List.mem_cons.1 h with rfl | h
      · simp [hc] at hx
      · exact ih h
    · rwa [List.dropWhile_cons_of_neg hx]

theorem mem_trim {c : Char} {cs : List Char} (h : c ∈ cs) (hc : isBlank c = false) :
    c ∈ trim cs :=
  List.mem_reverse.2 (mem_dropWhile (List.mem_reverse.2 (mem_dropWhile h hc)) hc)

def trimEnd (cs : List Char) : List Char := (cs.reverse.dropWhile isBlank).reverse

theorem trim_eq (cs : List Char) : trim cs = trimEnd (cs.dropWhile isBlank) := rfl

theorem trimEnd_append (a b : List Char) :
    trimEnd (a ++ b) = if trimEnd b = [] then trimEnd a else a ++ trimEnd b := by
  simp only [trimEnd, List.reverse_append, List.dropWhile_append, List.isEmpty_iff,
    List.reverse_eq_nil_iff]
  split <;> simp

theorem trimEnd_of_last {cs : List Char} (h : ∀ c ∈ cs.getLast?, isBlank c = false) :
    trimEnd cs = cs := by
  rw [← List.head?_reverse] at h
  cases hcs : cs.reverse with
  | nil => simp [trimEnd, List.reverse_eq_nil_iff.1 hcs]
  | cons c rest =>
    rw [hcs] at h
    have hc : ¬isBlank c = true := by simpa using h c rfl
    rw [trimEnd, hcs, List.dropWhile_cons_of_neg hc, ← hcs, List.reverse_reverse]

theorem plain_of_blank {c : Char} (h : isBlank c = true) :
    c.isDigit = false ∧ c.isAlpha = false ∧ c ≠ '.' ∧ c ≠ '\\' ∧ c ≠ '<' ∧ c ≠ '>' ∧ c ≠ 'π' ∧
      c ≠ '}' ∧ Token.markCharacters.lookup c = none := by
  have all : ∀ c ∈ blanks, c.isDigit = false ∧ c.isAlpha = false ∧ c ≠ '.' ∧ c ≠ '\\' ∧ c ≠ '<' ∧
      c ≠ '>' ∧ c ≠ 'π' ∧ c ≠ '}' ∧ Token.markCharacters.lookup c = none :=
    forall_of_all (by decide)
  exact all c (by simpa [isBlank] using h)

end Text

namespace Lexeme

open Text (endsInEscape escapedAfter isBlank trimEnd)

theorem backslash_not_mem_of_wrappedWord {word : String} {m : Token.Meaning}
    (h : Token.wrappedWord? word = some m) : '\\' ∉ word.toList := by
  have names : ∀ f ∈ Builtin.all, '\\' ∉ f.name.toList ∧ ∀ s ∈ f.aliases, '\\' ∉ s.toList := by
    decide
  cases Token.wordMeans h with
  | empty empty => simp [empty]
  | differential sign => simp [sign]
  | @function f known =>
    have hname := List.find?_some known
    simp only [Bool.or_eq_true, beq_iff_eq, List.contains_iff_mem] at hname
    obtain rfl | halias := hname
    · exact (names f f.mem_all).1
    · exact (names f f.mem_all).2 word halias
  | letters nonempty alphas =>
    intro hmem
    have := alphas _ hmem
    simp at this

theorem not_mem_of_wrapped {word content : List Char} (h : (wrapped word content).IsLegal) :
    ∀ c ∈ content, c ≠ '\\' := by
  rintro c hc rfl
  have hmem := Text.mem_trim hc (by decide)
  obtain ⟨m, hm⟩ := h
  rw [← String.toList_ofList (l := Text.trim content)] at hmem
  exact backslash_not_mem_of_wrappedWord (meaning_wrapped.1 hm) hmem

/-- Where a lexeme has a backslash: nowhere, or only before its other
characters, of which another backslash is the last one. -/
theorem backslash_cases {l : Lexeme} {cs rest : List Char} (h : Starts l cs rest)
    (hl : l.IsLegal) : (∀ c ∈ l.text, c ≠ '\\') ∨ l.text = ['\\', '\\'] ∨
      ∃ c w, l.text = '\\' :: c :: w ∧ ∀ x ∈ c :: w, x ≠ '\\' := by
  have digit {c : Char} (hc : c.isDigit = true) : c ≠ '\\' := by
    rintro rfl
    simp at hc
  have alpha {c : Char} (hc : c.isAlpha = true) : c ≠ '\\' := by
    rintro rfl
    simp at hc
  cases h with
  | integer nonempty digits stop => exact .inl fun c hc => digit (digits c hc)
  | decimal digits decimals nonempty stop =>
    refine .inl fun c hc => ?_
    simp only [text, List.mem_append, List.mem_cons] at hc
    obtain hc | rfl | hc := hc
    · exact digit (digits c hc)
    · decide
    · exact digit (decimals c hc)
  | letter h => exact .inl (by simpa [text] using alpha h)
  | literalOpen | literalClose => exact .inr (.inr ⟨_, _, rfl, Text.forall_of_all (by decide)⟩)
  | @escapedSpacing c _ mark =>
    by_cases hc : c = '\\'
    · exact .inr (.inl (by simp [text, hc]))
    · exact .inr (.inr ⟨c, [], rfl, by simpa using hc⟩)
  | @command name _ nonempty alphas stop unwrapped =>
    cases name with
    | nil => exact absurd rfl nonempty
    | cons c w => exact .inr (.inr ⟨c, w, rfl, fun x hx => alpha (alphas x hx)⟩)
  | @wrapped word content _ nonempty alphas wrapper flat =>
    cases word with
    | nil => exact absurd rfl nonempty
    | cons c w =>
      refine .inr (.inr ⟨c, w ++ '{' :: content ++ ['}'], rfl, fun x hx => ?_⟩)
      have hcontent := not_mem_of_wrapped hl
      simp only [List.mem_cons, List.mem_append, List.append_assoc, List.cons_append,
        List.not_mem_nil, or_false] at hx
      obtain rfl | hx | rfl | hx | rfl := hx
      · exact alpha (alphas x List.mem_cons_self)
      · exact alpha (alphas x (List.mem_cons_of_mem c hx))
      · decide
      · exact hcontent x hx
      · decide
  | lessEqual | greaterEqual => exact .inl (Text.forall_of_all (by decide))
  | pi => exact .inl (Text.forall_of_all (by decide))
  | skipped mark => exact .inl (by simpa [text] using (plain_of_skipped mark).2.2.2.1)
  | mark known stop => exact .inl (by simpa [text] using (plain_of_mark known).2.2.2.1)

theorem endsInEscape_text {l : Lexeme} {cs rest : List Char} (h : Starts l cs rest)
    (hl : l.IsLegal) : endsInEscape l.text = false := by
  obtain hplain | htext | ⟨c, w, htext, hplain⟩ := backslash_cases h hl
  · exact Text.escapedAfter_plain hplain
  · rw [htext]
    rfl
  · have hw := Text.escapedAfter_plain fun x hx => hplain x (List.mem_cons_of_mem c hx)
    simp only [htext, endsInEscape, escapedAfter, List.foldl_cons] at hw ⊢
    simpa [hplain c List.mem_cons_self] using hw

theorem Reads.endsInEscape {cs : List Char} {ls : List Lexeme} (h : Reads cs ls) :
    Text.endsInEscape cs = false := by
  induction h with
  | nil => rfl
  | cons starts legal more ih =>
    have htext := endsInEscape_text starts legal
    simp only [Text.endsInEscape] at htext ih ⊢
    rw [starts.text, Text.escapedAfter_append, htext, ih]

/-- Where a row stands at a backslash of its text: the backslash starts a lexeme, unless
the backslash before it makes a lexeme with it. -/
inductive AtBackslash (pre suf : List Char) (ls : List Lexeme) : Prop
  | starts (ms ns : List Lexeme) (free : Text.endsInEscape pre = false) (split : ls = ms ++ ns)
      (front : row ms = pre) (behind : row ns = '\\' :: suf)
  | ends (ms ns : List Lexeme) (escaped : Text.endsInEscape pre = true) (split : ls = ms ++ ns)
      (front : row ms = pre ++ ['\\']) (behind : row ns = suf)

theorem AtBackslash.cons {l : Lexeme} {ls : List Lexeme} {cs rest pre suf : List Char}
    (starts : Starts l cs rest) (legal : l.IsLegal) (h : AtBackslash pre suf ls) :
    AtBackslash (l.text ++ pre) suf (l :: ls) := by
  have hescape : Text.endsInEscape (l.text ++ pre) = Text.endsInEscape pre := by
    have htext := endsInEscape_text starts legal
    simp only [Text.endsInEscape] at htext ⊢
    rw [Text.escapedAfter_append, htext]
  cases h with
  | starts ms ns free split front behind =>
    exact .starts (l :: ms) ns (hescape.trans free) (by rw [split]; rfl) (by simp [front]) behind
  | ends ms ns escaped split front behind =>
    exact .ends (l :: ms) ns (hescape.trans escaped) (by rw [split]; rfl) (by simp [front]) behind

theorem AtBackslash.inside {l : Lexeme} {ls : List Lexeme} {cs rest pre w : List Char}
    (starts : Starts l cs rest) (legal : l.IsLegal) (more : Reads rest ls)
    (htext : l.text = pre ++ '\\' :: w) : AtBackslash pre (w ++ rest) (l :: ls) := by
  cases pre with
  | nil => exact .starts [] (l :: ls) rfl rfl rfl (by simp [htext, more.text])
  | cons y pre =>
    obtain hplain | hpair | ⟨c, v, hv, hplain⟩ := backslash_cases starts legal
    · exact absurd rfl (hplain '\\' (by simp [htext]))
    · rw [hpair] at htext
      obtain ⟨rfl, hpre⟩ := List.cons.inj htext
      obtain ⟨rfl, rfl⟩ : pre = [] ∧ w = [] := by
        cases pre with
        | nil => simpa using hpre
        | cons _ _ => simp at hpre
      exact .ends [l] ls rfl rfl (by simp [hpair]) (by simp [more.text])
    · rw [hv] at htext
      have hmem : '\\' ∈ c :: v := (List.cons.inj htext).2 ▸ by simp
      exact absurd rfl (hplain '\\' hmem)

theorem Reads.at_backslash {cs : List Char} {ls : List Lexeme} (h : Reads cs ls)
    {pre suf : List Char} (hcs : cs = pre ++ '\\' :: suf) : AtBackslash pre suf ls := by
  induction h generalizing pre with
  | nil => simp at hcs
  | @cons l ls cs rest starts legal more ih =>
    rw [starts.text] at hcs
    obtain ⟨pre', rfl, hrest⟩ | ⟨inside, htext, hsuf⟩ := List.append_eq_append_iff.1 hcs
    · exact (ih hrest).cons starts legal
    · cases inside with
      | nil =>
        obtain rfl : l.text = pre := by simpa using htext
        have next : AtBackslash [] suf ls := ih hsuf.symm
        simpa using next.cons starts legal
      | cons x w =>
        obtain ⟨rfl, rfl⟩ := List.cons.inj hsuf
        exact .inside starts legal more htext

theorem starts_of_blank {l : Lexeme} {c : Char} {cs rest : List Char}
    (h : Starts l (c :: cs) rest) (hc : isBlank c = true) : l = spacing [c] ∧ rest = cs := by
  obtain ⟨hdigit, halpha, hpoint, hslash, hless, hgreater, hpi, -, hmark⟩ := Text.plain_of_blank hc
  have hscan : scan c cs = _ :=
    scan_single hdigit halpha hpoint hslash hpi (by simp [hless, hgreater])
  rw [scan_of_starts h, hmark] at hscan
  split at hscan
  · subst hscan
    exact ⟨rfl, (List.cons.inj h.text).2.symm⟩
  · subst hscan
    cases h

theorem Reads.dropWhile_blank {cs : List Char} {ls : List Lexeme} (h : Reads cs ls) :
    ∃ ms ns, ls = ms ++ ns ∧ Silent ms ∧ row ns = cs.dropWhile isBlank := by
  induction h with
  | nil => exact ⟨[], [], rfl, fun _ => rfl, rfl⟩
  | @cons l ls cs rest starts legal more ih =>
    cases cs with
    | nil => exact absurd starts.text (by simp [starts.text_ne_nil])
    | cons c cs =>
      by_cases hc : isBlank c = true
      · obtain ⟨rfl, rfl⟩ := starts_of_blank starts hc
        obtain ⟨ms, ns, rfl, hms, hns⟩ := ih
        exact ⟨spacing [c] :: ms, ns, rfl, .cons (fun _ => rfl) hms,
          by rw [List.dropWhile_cons_of_pos hc, hns]⟩
      · refine ⟨[], l :: ls, rfl, fun _ => rfl, ?_⟩
        rw [List.dropWhile_cons_of_neg hc, (Reads.cons starts legal more).text]

theorem trimEnd_text {l : Lexeme} {cs rest : List Char} (h : Starts l cs rest) :
    trimEnd l.text = l.text ∨ (trimEnd l.text = [] ∧ ∀ p, l.tokens p = .ok []) ∨
      trimEnd l.text = ['\\'] := by
  have kept (hlast : ∀ c ∈ l.text, isBlank c = false) : trimEnd l.text = l.text :=
    Text.trimEnd_of_last fun c hc => hlast c (List.mem_of_getLast? hc)
  have digit {c : Char} (hc : c.isDigit = true) : isBlank c = false := by
    refine Bool.eq_false_iff.2 fun hb => ?_
    simp [(Text.plain_of_blank hb).1] at hc
  have alpha {c : Char} (hc : c.isAlpha = true) : isBlank c = false := by
    refine Bool.eq_false_iff.2 fun hb => ?_
    simp [(Text.plain_of_blank hb).2.1] at hc
  cases h with
  | integer nonempty digits stop => exact .inl (kept fun c hc => digit (digits c hc))
  | decimal digits decimals nonempty stop =>
    refine .inl (kept fun c hc => ?_)
    simp only [text, List.mem_append, List.mem_cons] at hc
    obtain hc | rfl | hc := hc
    · exact digit (digits c hc)
    · decide
    · exact digit (decimals c hc)
  | letter h => exact .inl (kept (by simpa [text] using alpha h))
  | literalOpen | literalClose => exact .inl (kept (Text.forall_of_all (by decide)))
  | @escapedSpacing c _ mark =>
    have marks : ∀ c ∈ spacingMarks, c = ' ' ∨ isBlank c = false :=
      Text.forall_of_all (by decide)
    obtain rfl | hc := marks c mark
    · exact .inr (.inr rfl)
    · refine .inl (kept ?_)
      simp only [text, List.forall_mem_cons]
      exact ⟨by decide, hc, by simp⟩
  | command nonempty alphas stop unwrapped =>
    refine .inl (kept ?_)
    simp only [text, List.forall_mem_cons]
    exact ⟨by decide, fun c hc => alpha (alphas c hc)⟩
  | @wrapped word content _ nonempty alphas wrapper flat =>
    refine .inl (Text.trimEnd_of_last fun c hc => ?_)
    simp only [text, List.getLast?_append, List.getLast?_singleton, Option.some_or,
      Option.mem_def, Option.some.injEq] at hc
    subst hc
    decide
  | lessEqual | greaterEqual => exact .inl (kept (Text.forall_of_all (by decide)))
  | pi => exact .inl (kept (Text.forall_of_all (by decide)))
  | @skipped c _ mark =>
    by_cases hc : isBlank c = true
    · exact .inr (.inl ⟨by simp [trimEnd, text, hc], fun _ => rfl⟩)
    · exact .inl (kept (by simpa [text] using hc))
  | @mark c _ _ known stop =>
    refine .inl (kept ?_)
    have hc : isBlank c = false := by
      refine Bool.eq_false_iff.2 fun hb => ?_
      simp [(Text.plain_of_blank hb).2.2.2.2.2.2.2.2] at known
    simpa [text] using hc

theorem Reads.trimEnd {cs : List Char} {ls : List Lexeme} (h : Reads cs ls) :
    (∃ ms ns, ls = ms ++ ns ∧ Silent ns ∧ row ms = Text.trimEnd cs) ∨
      Text.endsInEscape (Text.trimEnd cs) = true := by
  induction h with
  | nil => exact .inl ⟨[], [], rfl, fun _ => rfl, rfl⟩
  | @cons l ls cs rest starts legal more ih =>
    rw [starts.text, Text.trimEnd_append]
    split
    · next hrest =>
      obtain ⟨ms, ns, rfl, hns, hms⟩ | hescape := ih
      · have hsilent : Silent (ms ++ ns) := by
          cases ms with
          | nil => exact hns
          | cons m ms =>
            have hnil := more.of_prefix
            rw [hms, hrest] at hnil
            exact absurd (hnil.unique .nil) (by simp)
        obtain htext | ⟨htext, hl⟩ | htext := trimEnd_text starts
        · exact .inl ⟨[l], ms ++ ns, rfl, hsilent, by simp [htext]⟩
        · exact .inl ⟨[], l :: (ms ++ ns), rfl, .cons hl hsilent, by simp [htext]⟩
        · exact .inr (by rw [htext]; rfl)
      · rw [hrest] at hescape
        cases hescape
    · obtain ⟨ms, ns, rfl, hns, hms⟩ | hescape := ih
      · exact .inl ⟨l :: ms, ns, rfl, hns, by simp [hms]⟩
      · refine .inr ?_
        have htext := endsInEscape_text starts legal
        simp only [Text.endsInEscape] at htext hescape ⊢
        rw [Text.escapedAfter_append, htext, hescape]

/-- Blanks around a row are lexemes that leave no token, unless a backslash is
cut off from the blank behind it. -/
theorem Reads.trim {cs : List Char} {ls : List Lexeme} (h : Reads cs ls) :
    (∃ ms body ns, ls = ms ++ body ++ ns ∧ Silent ms ∧ Silent ns ∧ row body = Text.trim cs ∧
      Reads (row body) body) ∨ Text.endsInEscape (Text.trim cs) = true := by
  obtain ⟨ms, ns, rfl, hms, hns⟩ := h.dropWhile_blank
  have hright := h.of_suffix
  obtain ⟨body, silent, rfl, hsilent, hbody⟩ | hescape := hright.trimEnd
  · exact .inl ⟨ms, body, silent, by simp, hms, hsilent, by rw [hbody, hns, Text.trim_eq],
      hright.of_prefix⟩
  · exact .inr (by rwa [Text.trim_eq, ← hns])

end Lexeme

end AnswerKey

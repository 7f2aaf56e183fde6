import AnswerKey.Proofs.Token.Scanning

/-! Texts as rows of lexemes: cutting and joining them between lexemes, and the
tokens of a row at any place. -/
namespace AnswerKey

namespace Lexeme

def isClosing (c : Char) : Bool := c = ',' || c = ';' || c = '}'

def isApart (c : Char) : Bool := !c.isDigit && !c.isAlpha && c != '.' && c != '='

theorem isApart_of_isClosing {c : Char} (h : isClosing c = true) : isApart c = true := by
  simp only [isClosing, Bool.or_eq_true, decide_eq_true_eq] at h
  rcases h with (rfl | rfl) | rfl <;> decide

theorem not_isLegal_wrapper {name : List Char}
    (h : Token.wrapperCommands.contains (String.ofList name) = true) :
    ¬(command name).IsLegal := by
  have unknown : ∀ s ∈ Token.wrapperCommands, Token.command? s = none := by decide
  rintro ⟨m, hm⟩
  simp [meaning, unknown _ (List.contains_iff_mem.1 h)] at hm

theorem Starts.with_rest {l : Lexeme} {cs rest rest' : List Char} (h : Starts l cs rest)
    (legal : l.IsLegal)
    (hrest : rest'.head? = rest.head? ∨ ∀ c ∈ rest'.head?, isApart c = true) :
    Starts l (l.text ++ rest') rest' := by
  have apart {c : Char} (hc : isApart c = true) :
      c.isDigit = false ∧ c.isAlpha = false ∧ c ≠ '.' ∧ c ≠ '=' := by
    simpa [isApart, and_assoc] using hc
  cases h with
  | integer nonempty digits stop =>
    refine .integer nonempty digits fun c hc => ?_
    rcases hrest with hrest | hrest
    · exact stop c (hrest ▸ hc)
    · exact ⟨(apart (hrest c hc)).1, (apart (hrest c hc)).2.2.1⟩
  | decimal digits decimals nonempty stop =>
    refine .decimal digits decimals nonempty fun c hc => ?_
    rcases hrest with hrest | hrest
    · exact stop c (hrest ▸ hc)
    · exact (apart (hrest c hc)).1
  | letter alpha => exact .letter alpha
  | literalOpen => exact .literalOpen
  | literalClose => exact .literalClose
  | escapedSpacing mark => exact .escapedSpacing mark
  | command nonempty alphas stop unwrapped =>
    refine .command nonempty alphas (fun c hc => ?_) fun hw => absurd legal (not_isLegal_wrapper hw)
    rcases hrest with hrest | hrest
    · exact stop c (hrest ▸ hc)
    · exact (apart (hrest c hc)).2.1
  | wrapped nonempty alphas wrapper flat => exact .wrapped nonempty alphas wrapper flat
  | lessEqual => exact .lessEqual
  | greaterEqual => exact .greaterEqual
  | pi => exact .pi
  | skipped mark => exact .skipped mark
  | mark known stop =>
    refine .mark known fun hc => ?_
    rcases hrest with hrest | hrest
    · exact hrest ▸ stop hc
    · exact fun h => (apart (hrest _ h)).2.2.2 rfl

def row (ls : List Lexeme) : List Char := ls.flatMap text

@[simp] theorem row_nil : row [] = [] := rfl

@[simp] theorem row_cons (l : Lexeme) (ls : List Lexeme) : row (l :: ls) = l.text ++ row ls := rfl

@[simp] theorem row_append (ls ms : List Lexeme) : row (ls ++ ms) = row ls ++ row ms :=
  List.flatMap_append

def tokensFrom (position : Nat) : List Lexeme → List Token
  | [] => []
  | l :: ls =>
    (l.tokens position).toOption.getD [] ++ tokensFrom (position + Text.size l.text) ls

theorem tokensFrom_append (position : Nat) (ls ms : List Lexeme) :
    tokensFrom position (ls ++ ms) =
      tokensFrom position ls ++ tokensFrom (position + Text.size (row ls)) ms := by
  induction ls generalizing position with
  | nil => simp [tokensFrom, Text.size]
  | cons l ls ih => simp [tokensFrom, ih, Nat.add_assoc]

theorem tokensFrom_none {l : Lexeme} (hl : ∀ q, l.tokens q = .ok []) (p : Nat)
    (ls : List Lexeme) : tokensFrom p (l :: ls) = tokensFrom (p + Text.size l.text) ls := by
  simp [tokensFrom, hl, Except.toOption]

theorem tokensFrom_one {l : Lexeme} {kind : Token.Kind} {name : String}
    (hl : ∀ q, l.tokens q = .ok [⟨kind, name, q, q + Text.size l.text⟩]) (p : Nat)
    (ls : List Lexeme) : tokensFrom p (l :: ls) =
      ⟨kind, name, p, p + Text.size l.text⟩ :: tokensFrom (p + Text.size l.text) ls := by
  simp [tokensFrom, hl, Except.toOption]

def Silent (ls : List Lexeme) : Prop := ∀ p, tokensFrom p ls = []

theorem Silent.cons {l : Lexeme} {ls : List Lexeme} (h : ∀ p, l.tokens p = .ok [])
    (h' : Silent ls) : Silent (l :: ls) := by
  intro p
  rw [tokensFrom_none h, h']

theorem tokensFrom_silent {ls ms ns : List Lexeme} (h : Silent ls) (h' : Silent ns) (p : Nat) :
    tokensFrom p (ls ++ ms ++ ns) = tokensFrom (p + Text.size (row ls)) ms := by
  rw [tokensFrom_append, tokensFrom_append, h, h']
  simp

theorem tokens_eq_ok {l : Lexeme} (h : l.IsLegal) :
    (∀ p, l.tokens p = .ok []) ∨ ∃ kind name, ∀ p, l.tokens p =
      .ok [⟨kind, name, p, p + Text.size l.text⟩] := by
  obtain ⟨m, hm⟩ := h
  cases m with
  | nothing =>
    left
    exact fun p => by simp [tokens, meaning_eq_ok (q := p) hm, Except.map]
  | mark kind =>
    right
    exact ⟨kind, _, fun p => by simp [tokens, meaning_eq_ok (q := p) hm, Except.map]; rfl⟩
  | named kind name =>
    right
    exact ⟨kind, name, fun p => by simp [tokens, meaning_eq_ok (q := p) hm, Except.map]⟩

/-- The text falls into these lexemes, all of which mean something. -/
inductive Reads : List Char → List Lexeme → Prop
  | nil : Reads [] []
  | cons {l : Lexeme} {ls : List Lexeme} {cs rest : List Char} (starts : Starts l cs rest)
      (legal : l.IsLegal) (more : Reads rest ls) : Reads cs (l :: ls)

namespace Reads

variable {cs : List Char} {ls ms : List Lexeme}

theorem text (h : Reads cs ls) : cs = row ls := by
  induction h with
  | nil => rfl
  | cons starts _ _ ih => rw [starts.text, ih, row_cons]

/-- A row that is read goes on being read before a text that starts apart. -/
theorem append_apart {ds : List Char} (h : Reads cs ls) (h' : Reads ds ms)
    (hd : ∀ c ∈ ds.head?, isApart c = true) : Reads (cs ++ ds) (ls ++ ms) := by
  induction h with
  | nil => exact h'
  | @cons l ls cs rest starts legal more ih =>
    have hrest : (rest ++ ds).head? = rest.head? ∨
        ∀ c ∈ (rest ++ ds).head?, isApart c = true := by
      cases rest with
      | nil => exact .inr hd
      | cons => exact .inl rfl
    have hstarts := starts.with_rest legal hrest
    rw [starts.text, List.append_assoc]
    exact .cons hstarts legal ih

theorem append {ds : List Char} (h : Reads cs ls) (h' : Reads ds ms)
    (hd : ∀ c ∈ ds.head?, isClosing c = true) : Reads (cs ++ ds) (ls ++ ms) :=
  h.append_apart h' fun c hc => isApart_of_isClosing (hd c hc)

theorem rest {l : Lexeme} (h : Reads cs (l :: ls)) : Reads (row ls) ls := by
  cases h with
  | cons _ _ more => exact more.text ▸ more

theorem slice_row {ns : List Lexeme} (h : Reads cs (ls ++ (ms ++ ns))) :
    Text.slice (Text.size (row ls)) (Text.size (row ls) + Text.size (row ms)) cs = row ms := by
  rw [h.text, row_append, row_append, Text.slice_append]

theorem of_suffix (h : Reads cs (ls ++ ms)) : Reads (row ms) ms := by
  induction ls generalizing cs with
  | nil => exact h.text ▸ h
  | cons l ls ih =>
    cases h with
    | cons _ _ more => exact ih more

theorem of_prefix (h : Reads cs (ls ++ ms)) : Reads (row ls) ls := by
  induction ls generalizing cs with
  | nil => exact .nil
  | cons l ls ih =>
    cases h with
    | cons starts legal more =>
      refine .cons (starts.with_rest legal ?_) legal (ih more)
      have hrest := more.text
      rw [List.append_eq, row_append] at hrest
      change (row ls).head? = _ ∨ ∀ c ∈ (row ls).head?, _
      cases hls : row ls with
      | nil => exact .inr (by simp)
      | cons c rest => exact .inl (by rw [hrest, hls]; rfl)

theorem legal (h : Reads cs ls) : ∀ l ∈ ls, l.IsLegal := by
  induction h with
  | nil => simp
  | cons _ legal _ ih =>
    intro l hl
    rcases List.mem_cons.1 hl with rfl | hl
    · exact legal
    · exact ih l hl

/-- A text falls into lexemes in one way. -/
theorem unique (h : Reads cs ls) (h' : Reads cs ms) : ls = ms := by
  induction h generalizing ms with
  | nil =>
    cases h' with
    | nil => rfl
    | cons starts => exact absurd starts.text (by simp [starts.text_ne_nil])
  | @cons l ls cs rest starts legal more ih =>
    cases h' with
    | nil => exact absurd starts.text (by simp [starts.text_ne_nil])
    | @cons m ms _ rest' starts' legal' more' =>
      obtain rfl : l = m := by
        cases cs with
        | nil => exact absurd starts.text (by simp [starts.text_ne_nil])
        | cons c cs => rw [← scan_of_starts starts, scan_of_starts starts']
      obtain rfl : rest = rest' := List.append_cancel_left (starts.text.symm.trans starts'.text)
      rw [ih more']

end Reads

end Lexeme

namespace Token

open Lexeme (Reads row tokensFrom)

theorem lexFrom_skip {position : Nat} (a b : List Char) :
    lexFrom position a.length (a ++ b) = lexFrom (position + Text.size a) 0 b := by
  induction a generalizing position with
  | nil => rfl
  | cons c a ih =>
    rw [List.length_cons, List.cons_append, lexFrom, ih, Text.size, Nat.add_assoc]

theorem lexFrom_of_starts {l : Lexeme} {position : Nat} {cs rest : List Char}
    (h : l.Starts cs rest) :
    lexFrom position 0 cs = do
      let first ← l.tokens position
      let rest ← lexFrom (position + Text.size l.text) 0 rest
      return first ++ rest := by
  cases cs with
  | nil => exact absurd h.text (by simp [h.text_ne_nil])
  | cons c cs =>
    have hscan := Lexeme.scan_of_starts h
    obtain ⟨ds, hds⟩ : ∃ ds, l.text = c :: ds := by
      cases hl : l.text with
      | nil => exact absurd hl h.text_ne_nil
      | cons x ds =>
        have := h.text
        rw [hl] at this
        exact ⟨ds, by rw [(List.cons.inj this).1]⟩
    obtain rfl : cs = ds ++ rest := by
      have := h.text
      rw [hds] at this
      exact (List.cons.inj this).2
    simp only [lexFrom, hscan, hds, List.length_cons, Nat.add_sub_cancel, lexFrom_skip, Text.size,
      Nat.add_assoc]

theorem isLegal_of_lexFrom {position : Nat} {c : Char} {cs : List Char} {ts : List Token}
    (h : lexFrom position 0 (c :: cs) = .ok ts) : (Lexeme.scan c cs).IsLegal := by
  simp only [lexFrom, bind_eq_ok] at h
  obtain ⟨first, hfirst, -⟩ := h
  obtain ⟨m, hm⟩ := Lexeme.meaning_of_tokens hfirst
  exact ⟨m, Lexeme.meaning_eq_ok hm⟩

/-- A text falls into tokens just when it falls into lexemes that mean something. -/
theorem lexFrom_eq_ok {position : Nat} {cs : List Char} {ts : List Token} :
    lexFrom position 0 cs = .ok ts ↔ ∃ ls, Reads cs ls ∧ ts = tokensFrom position ls := by
  constructor
  · intro h
    -- A lexeme takes a character at least, so that a shorter text is left.
    induction hn : cs.length using Nat.strongRecOn generalizing position cs ts with
    | _ n ih =>
      cases cs with
      | nil =>
        cases h
        exact ⟨[], .nil, rfl⟩
      | cons c cs =>
        have hlegal := isLegal_of_lexFrom h
        obtain ⟨rest, hstarts⟩ := Lexeme.starts_of_scan hlegal
        rw [lexFrom_of_starts hstarts] at h
        simp only [bind_eq_ok, pure_eq_ok] at h
        obtain ⟨first, hfirst, more, hmore, rfl⟩ := h
        have hlength : rest.length < n := by
          have := List.length_pos_iff.2 hstarts.text_ne_nil
          have htext := congrArg List.length hstarts.text
          simp only [List.length_append] at htext
          omega
        obtain ⟨ls, hls, rfl⟩ := ih _ hlength hmore rfl
        exact ⟨_ :: ls, .cons hstarts hlegal hls, by simp [tokensFrom, hfirst, Except.toOption]⟩
  · rintro ⟨ls, h, rfl⟩
    induction h generalizing position with
    | nil => rfl
    | @cons l ls cs rest starts legal more ih =>
      rw [lexFrom_of_starts starts, ih]
      obtain h | ⟨kind, name, h⟩ := Lexeme.tokens_eq_ok legal
      · simp [h, tokensFrom, Except.toOption, bind, Except.bind, pure, Except.pure]
      · simp [h, tokensFrom, Except.toOption, bind, Except.bind, pure, Except.pure]

end Token

end AnswerKey

import AnswerKey.Proofs.Json.Lexical

/-! A document is read back from its text, in one line or laid out over lines. -/
namespace AnswerKey.Json

/-- A document that a text can show: its numbers are well formed, and its texts
and keys are whole. -/
inductive IsProper : Json → Prop where
  | null : IsProper null
  | bool (b : Bool) : IsProper (bool b)
  | number {lexeme : String} (h : IsLexeme lexeme.toList) : IsProper (number lexeme)
  | text (s : String) : IsProper (text s)
  | array {items : List Json} (h : ∀ j ∈ items, IsProper j) : IsProper (array items)
  | record {entries : List (String × Json)} (h : ∀ e ∈ entries, IsProper e.2) :
      IsProper (record entries)

def IsBlank (cs : List Char) : Prop := ∀ c ∈ cs, isSpace c = true

structure Layout.IsBlank (layout : Layout) : Prop where
  lineBreak : ∀ depth, Json.IsBlank (layout.lineBreak depth).toList
  afterKey : ∃ blanks, layout.afterKey.toList = ':' :: blanks ∧ Json.IsBlank blanks

theorem isBlank_compact : Layout.compact.IsBlank :=
  ⟨fun _ => by simp [Layout.compact, IsBlank], [], rfl, by simp [IsBlank]⟩

theorem isBlank_pretty : Layout.pretty.IsBlank := by
  refine ⟨fun depth c hc => ?_, [' '], rfl, by simp [IsBlank, isSpace]⟩
  have hc : c = '\n' ∨ 2 * depth ≠ 0 ∧ c = ' ' := by simpa [Layout.pretty] using hc
  rcases hc with rfl | ⟨-, rfl⟩ <;> rfl

section
variable {blanks : List Char} (hblanks : IsBlank blanks) (cs : List Char)

include hblanks in
theorem skipSpace_append : skipSpace (blanks ++ cs) = skipSpace cs :=
  List.dropWhile_append_of_pos hblanks

theorem skipSpace_of_head {c : Char} (hc : isSpace c = false) : skipSpace (c :: cs) = c :: cs := by
  simp [skipSpace, hc]

include hblanks in
theorem skipSpace_append_cons {c : Char} (hc : isSpace c = false) :
    skipSpace (blanks ++ c :: cs) = c :: cs := by
  rw [skipSpace_append hblanks, skipSpace_of_head cs hc]

theorem skipSpace_skipSpace : skipSpace (skipSpace cs) = skipSpace cs :=
  List.dropWhile_idempotent _ _

theorem value?_skipSpace (fuel : Nat) : value? fuel (skipSpace cs) = value? fuel cs := by
  cases fuel with
  | zero => rfl
  | succ fuel => rw [value?, value?, skipSpace_skipSpace]

theorem items?_skipSpace (fuel : Nat) : items? fuel (skipSpace cs) = items? fuel cs := by
  cases fuel with
  | zero => rfl
  | succ fuel => rw [items?, items?, value?_skipSpace]

theorem entries?_skipSpace (fuel : Nat) : entries? fuel (skipSpace cs) = entries? fuel cs := by
  cases fuel with
  | zero => rfl
  | succ fuel => rw [entries?, entries?, skipSpace_skipSpace]

include hblanks in
theorem value?_append (fuel : Nat) : value? fuel (blanks ++ cs) = value? fuel cs := by
  rw [← value?_skipSpace, skipSpace_append hblanks, value?_skipSpace]

include hblanks in
theorem ends_append {cs : List Char} (hends : Ends cs) : Ends (blanks ++ cs) := by
  refine head?_append_of_empty (fun c hc => ?_) hends
  have hspace : isSpace c = true := hblanks c (List.mem_of_head? hc)
  simp only [isSpace, Bool.or_eq_true, decide_eq_true_eq] at hspace
  rcases hspace with ((rfl | rfl) | rfl) | rfl <;> decide

end

theorem IsLexeme.head {cs : List Char} (h : IsLexeme cs) :
    ∃ c tail, cs = c :: tail ∧ (c = '-' ∨ c.isDigit = true) := by
  cases h with
  | unsigned h =>
    obtain ⟨c, tail, hcs, hc⟩ := h.head
    exact ⟨c, tail, hcs, .inr hc⟩
  | minus h => exact ⟨'-', _, rfl, .inl rfl⟩

theorem ne_of_lexeme {c d : Char} (h : c = '-' ∨ c.isDigit = true) (hd : d ≠ '-')
    (hdigit : d.isDigit = false) : c ≠ d := by
  rintro rfl
  obtain h | h := h
  · exact hd h
  · rw [hdigit] at h
    cases h

theorem isSpace_of_lexeme {c : Char} (h : c = '-' ∨ c.isDigit = true) : isSpace c = false := by
  simp [isSpace, ne_of_lexeme h (d := ' '), ne_of_lexeme h (d := '\t'),
    ne_of_lexeme h (d := '\n'), ne_of_lexeme h (d := '\r')]

variable {layout : Layout} {depth fuel : Nat} {rest : List Char}

def keyed (entries : List (String × Json)) : List (Option String × Json) :=
  entries.map fun (key, j) => (some key, j)

theorem record_eq (entries : List (String × Json)) : record entries = object (keyed entries) := rfl

section
variable (layout depth)

theorem toList_array (x : Json) (items : List Json) :
    (render layout depth (array (x :: items))).toList = '[' ::
      ((renderItems layout (depth + 1) (x :: items)).toList ++
        ((layout.lineBreak depth).toList ++ [']'])) := by
  simp [render]

theorem toList_record (e : String × Json) (entries : List (String × Json)) :
    (render layout depth (record (e :: entries))).toList = '\x7b' ::
      ((renderEntries layout (depth + 1) (keyed (e :: entries))).toList ++
        ((layout.lineBreak depth).toList ++ ['\x7d'])) := by
  simp [record, keyed, render]

end

theorem exists_head_render (layout : Layout) (depth : Nat) {j : Json} (h : IsProper j) :
    ∃ c tail, (render layout depth j).toList = c :: tail ∧ isSpace c = false ∧ c ≠ ']' := by
  cases h with
  | null => exact ⟨'n', _, by rw [render]; rfl, by decide, by decide⟩
  | bool b =>
    cases b with
    | false => exact ⟨'f', _, by rw [render]; rfl, by decide, by decide⟩
    | true => exact ⟨'t', _, by rw [render]; rfl, by decide, by decide⟩
  | @number lexeme h =>
    obtain ⟨c, tail, hcs, hc⟩ := h.head
    exact ⟨c, tail, by simpa [render] using hcs, isSpace_of_lexeme hc,
      ne_of_lexeme hc (by decide) (by decide)⟩
  | text s =>
    obtain ⟨tail, htail, -⟩ := quotedText?_quoted s
    exact ⟨'"', tail, by rw [text, render]; exact htail, by decide, by decide⟩
  | @array items _ =>
    cases items with
    | nil => exact ⟨'[', _, by rw [render]; rfl, by decide, by decide⟩
    | cons x rest => exact ⟨'[', _, toList_array layout depth x rest, by decide, by decide⟩
  | @record entries _ =>
    cases entries with
    | nil => exact ⟨'\x7b', _, by rw [record, List.map_nil, render]; rfl, by decide, by decide⟩
    | cons e rest => exact ⟨'\x7b', _, toList_record layout depth e rest, by decide, by decide⟩

/-- The reader finds a document in its text, whatever follows. The length of the
text is fuel enough. -/
def IsRead (layout : Layout) (j : Json) : Prop := ∀ depth fuel rest,
  (render layout depth j).toList.length < fuel → Ends rest →
    value? fuel ((render layout depth j).toList ++ rest) = some (j, rest)

theorem isRead_null : IsRead layout null := by
  intro depth fuel rest hfuel _
  obtain ⟨fuel, rfl⟩ := Nat.exists_eq_add_one_of_ne_zero (Nat.ne_zero_of_lt hfuel)
  rw [render, value?]
  rfl

theorem isRead_bool (b : Bool) : IsRead layout (bool b) := by
  intro depth fuel rest hfuel _
  obtain ⟨fuel, rfl⟩ := Nat.exists_eq_add_one_of_ne_zero (Nat.ne_zero_of_lt hfuel)
  cases b with
  | false =>
    rw [render, value?]
    rfl
  | true =>
    rw [render, value?]
    rfl

theorem isRead_number {lexeme : String} (h : IsLexeme lexeme.toList) :
    IsRead layout (number lexeme) := by
  intro depth fuel rest hfuel hrest
  obtain ⟨fuel, rfl⟩ := Nat.exists_eq_add_one_of_ne_zero (Nat.ne_zero_of_lt hfuel)
  obtain ⟨c, tail, hcs, hc⟩ := h.head
  have hread : lexeme? (c :: (tail ++ rest)) = some (lexeme.toList, rest) := by
    simpa [hcs] using lexeme?_append h hrest
  have hrender : (render layout depth (number lexeme)).toList = c :: tail := by
    simpa [render] using hcs
  rw [hrender, List.cons_append]
  simp [value?, skipSpace_of_head _ (isSpace_of_lexeme hc), hread, ne_of_lexeme hc (d := 'n'),
    ne_of_lexeme hc (d := 't'), ne_of_lexeme hc (d := 'f'), ne_of_lexeme hc (d := '"'),
    ne_of_lexeme hc (d := '['), ne_of_lexeme hc (d := '\x7b')]

theorem isRead_text (s : String) : IsRead layout (text s) := by
  intro depth fuel rest hfuel hrest
  obtain ⟨fuel, rfl⟩ := Nat.exists_eq_add_one_of_ne_zero (Nat.ne_zero_of_lt hfuel)
  obtain ⟨tail, htail, hread⟩ := quotedText?_quoted s
  have hrender : (render layout depth (text s)).toList = '"' :: tail := by
    rw [text, render]
    exact htail
  rw [hrender, List.cons_append, value?, skipSpace_of_head _ (by decide)]
  simp [hread, text]

section
variable (hlayout : layout.IsBlank) {blanks : List Char} (hblanks : IsBlank blanks)
include hlayout hblanks

theorem items?_renderItems {x : Json} {items : List Json} (h : ∀ j ∈ x :: items, IsRead layout j)
    (hfuel : (renderItems layout depth (x :: items)).toList.length + 1 < fuel) :
    items? fuel ((renderItems layout depth (x :: items)).toList ++ (blanks ++ ']' :: rest)) =
      some (x :: items, rest) := by
  induction items generalizing x fuel with
  | nil =>
    obtain ⟨fuel, rfl⟩ := Nat.exists_eq_add_one_of_ne_zero (Nat.ne_zero_of_lt hfuel)
    have hread := h x List.mem_cons_self depth fuel (blanks ++ ']' :: rest)
      (by simp [renderItems] at hfuel; omega) (ends_append hblanks (ends_cons.2 (by decide)))
    have hend : skipSpace (blanks ++ ']' :: rest) = ']' :: rest :=
      skipSpace_append_cons hblanks rest (by decide)
    simp [renderItems, items?, value?_append (hlayout.lineBreak depth), hread, hend]
  | cons y items ih =>
    obtain ⟨fuel, rfl⟩ := Nat.exists_eq_add_one_of_ne_zero (Nat.ne_zero_of_lt hfuel)
    have htext : (renderItems layout depth (x :: y :: items)).toList =
        (layout.lineBreak depth).toList ++ ((render layout depth x).toList ++
          ',' :: (renderItems layout depth (y :: items)).toList) := by simp [renderItems]
    -- The comma pays for the fuel of one more item.
    have hlength := congrArg List.length htext
    simp only [List.length_append, List.length_cons] at hlength
    have hread := h x List.mem_cons_self depth fuel
      (',' :: ((renderItems layout depth (y :: items)).toList ++ (blanks ++ ']' :: rest)))
      (by omega) (ends_cons.2 (by decide))
    have hcomma (cs : List Char) : skipSpace (',' :: cs) = ',' :: cs :=
      skipSpace_of_head cs (by decide)
    have hrest : items? fuel ((renderItems layout depth (y :: items)).toList ++
        (blanks ++ ']' :: rest)) = some (y :: items, rest) :=
      ih (fun j hj => h j (List.mem_cons_of_mem _ hj)) (by omega)
    simp [htext, items?, value?_append (hlayout.lineBreak depth), hread, hcomma, hrest]

omit hblanks in
theorem entries?_renderEntry (key : String) {j : Json} (h : IsRead layout j)
    (hfuel : (renderEntry layout depth (some key, j)).toList.length < fuel) (hends : Ends rest) :
    (∀ {after}, skipSpace rest = '\x7d' :: after →
      entries? (fuel + 1) ((renderEntry layout depth (some key, j)).toList ++ rest) =
        some ([(some key, j)], after)) ∧
    ∀ {after es last}, skipSpace rest = ',' :: after → entries? fuel after = some (es, last) →
      entries? (fuel + 1) ((renderEntry layout depth (some key, j)).toList ++ rest) =
        some ((some key, j) :: es, last) := by
  obtain ⟨tail, htail, hkey⟩ := quotedText?_quoted key
  obtain ⟨blanks, hcolon, hblanks⟩ := hlayout.afterKey
  have htext : (renderEntry layout depth (some key, j)).toList =
      (layout.lineBreak depth).toList ++
        '"' :: (tail ++ ':' :: (blanks ++ (render layout depth j).toList)) := by
    simp [renderEntry, quotedOption, htail, hcolon]
  have hlength := congrArg List.length htext
  simp only [List.length_append, List.length_cons] at hlength
  have hread := h depth fuel rest (by omega) hends
  have hquote (cs : List Char) : skipSpace ('"' :: cs) = '"' :: cs :=
    skipSpace_of_head cs (by decide)
  have hmark (cs : List Char) : skipSpace (':' :: cs) = ':' :: cs :=
    skipSpace_of_head cs (by decide)
  constructor
  · intro after hend
    simp [htext, entries?, skipSpace_append (hlayout.lineBreak depth), hquote, hkey, hmark,
      value?_append hblanks, hread, hend]
  · intro after es last hend hafter
    simp [htext, entries?, skipSpace_append (hlayout.lineBreak depth), hquote, hkey, hmark,
      value?_append hblanks, hread, hend, hafter]

theorem entries?_renderEntries {e : String × Json} {entries : List (String × Json)}
    (h : ∀ x ∈ e :: entries, IsRead layout x.2)
    (hfuel : (renderEntries layout depth (keyed (e :: entries))).toList.length + 1 < fuel) :
    entries? fuel ((renderEntries layout depth (keyed (e :: entries))).toList ++
      (blanks ++ '\x7d' :: rest)) = some (keyed (e :: entries), rest) := by
  induction entries generalizing e fuel with
  | nil =>
    obtain ⟨fuel, rfl⟩ := Nat.exists_eq_add_one_of_ne_zero (Nat.ne_zero_of_lt hfuel)
    have hrender : renderEntries layout depth (keyed [e]) =
        renderEntry layout depth (some e.1, e.2) := by simp [keyed, renderEntries]
    rw [hrender] at hfuel ⊢
    exact (entries?_renderEntry hlayout e.1 (h e List.mem_cons_self) (by omega)
      (ends_append hblanks (ends_cons.2 (by decide)))).1
        (skipSpace_append_cons hblanks rest (by decide))
  | cons e' entries ih =>
    obtain ⟨fuel, rfl⟩ := Nat.exists_eq_add_one_of_ne_zero (Nat.ne_zero_of_lt hfuel)
    have hrender : (renderEntries layout depth (keyed (e :: e' :: entries))).toList =
        (renderEntry layout depth (some e.1, e.2)).toList ++
          ',' :: (renderEntries layout depth (keyed (e' :: entries))).toList := by
      simp [keyed, renderEntries]
    have hlength := congrArg List.length hrender
    simp only [List.length_append, List.length_cons] at hlength
    have hrest : entries? fuel ((renderEntries layout depth (keyed (e' :: entries))).toList ++
        (blanks ++ '\x7d' :: rest)) = some (keyed (e' :: entries), rest) :=
      ih (fun x hx => h x (List.mem_cons_of_mem _ hx)) (by omega)
    rw [hrender, List.append_assoc, List.cons_append]
    exact (entries?_renderEntry hlayout e.1 (h e List.mem_cons_self) (by omega)
      (ends_cons.2 (by decide))).2 (skipSpace_of_head _ (by decide)) hrest

end

theorem exists_head_renderItems (hlayout : layout.IsBlank) (depth : Nat) {x : Json}
    (hx : IsProper x) (items : List Json) (rest : List Char) : ∃ c tail,
      skipSpace ((renderItems layout depth (x :: items)).toList ++ rest) = c :: tail ∧ c ≠ ']' := by
  obtain ⟨c, tail, hrender, hspace, hc⟩ := exists_head_render layout depth hx
  obtain ⟨after, htext⟩ : ∃ after, (renderItems layout depth (x :: items)).toList =
      (layout.lineBreak depth).toList ++ c :: after := by
    cases items with
    | nil => exact ⟨tail, by simp [renderItems, hrender]⟩
    | cons y items => exact ⟨_, by simp [renderItems, hrender]; rfl⟩
  refine ⟨c, after ++ rest, ?_, hc⟩
  rw [htext, List.append_assoc, List.cons_append]
  exact skipSpace_append_cons (hlayout.lineBreak depth) _ hspace

theorem isRead_array (hlayout : layout.IsBlank) {items : List Json}
    (hproper : ∀ j ∈ items, IsProper j) (h : ∀ j ∈ items, IsRead layout j) :
    IsRead layout (array items) := by
  intro depth fuel rest hfuel hrest
  obtain ⟨fuel, rfl⟩ := Nat.exists_eq_add_one_of_ne_zero (Nat.ne_zero_of_lt hfuel)
  cases items with
  | nil =>
    rw [render, value?]
    rfl
  | cons x items =>
    have htext := toList_array layout depth x items
    have hlength := congrArg List.length htext
    simp only [List.length_append, List.length_cons, List.length_nil] at hlength
    have hread : items? fuel ((renderItems layout (depth + 1) (x :: items)).toList ++
        ((layout.lineBreak depth).toList ++ ']' :: rest)) = some (x :: items, rest) :=
      items?_renderItems hlayout (hlayout.lineBreak depth) h (by omega)
    -- The reader looks for the end of the array before it reads an item.
    obtain ⟨c, tail, hskip, hc⟩ := exists_head_renderItems hlayout (depth + 1)
      (hproper x List.mem_cons_self) items ((layout.lineBreak depth).toList ++ ']' :: rest)
    rw [← items?_skipSpace, hskip] at hread
    have hopen (cs : List Char) : skipSpace ('[' :: cs) = '[' :: cs :=
      skipSpace_of_head cs (by decide)
    simp [htext, value?, hopen, hskip, hc, hread]

theorem exists_head_renderEntries (hlayout : layout.IsBlank) (depth : Nat) (e : String × Json)
    (entries : List (String × Json)) (rest : List Char) : ∃ tail,
      skipSpace ((renderEntries layout depth (keyed (e :: entries))).toList ++ rest) =
        '"' :: tail := by
  obtain ⟨tail, hquoted, -⟩ := quotedText?_quoted e.1
  obtain ⟨after, htext⟩ : ∃ after, (renderEntries layout depth (keyed (e :: entries))).toList =
      (layout.lineBreak depth).toList ++ '"' :: after := by
    cases entries with
    | nil => exact ⟨_, by simp [keyed, renderEntries, renderEntry, quotedOption, hquoted]; rfl⟩
    | cons e' entries =>
      exact ⟨_, by simp [keyed, renderEntries, renderEntry, quotedOption, hquoted]; rfl⟩
  refine ⟨after ++ rest, ?_⟩
  rw [htext, List.append_assoc, List.cons_append]
  exact skipSpace_append_cons (hlayout.lineBreak depth) _ (by decide)

theorem isRead_record (hlayout : layout.IsBlank) {entries : List (String × Json)}
    (h : ∀ e ∈ entries, IsRead layout e.2) : IsRead layout (record entries) := by
  intro depth fuel rest hfuel hrest
  obtain ⟨fuel, rfl⟩ := Nat.exists_eq_add_one_of_ne_zero (Nat.ne_zero_of_lt hfuel)
  cases entries with
  | nil =>
    rw [record, List.map_nil, render, value?]
    rfl
  | cons e entries =>
    have htext := toList_record layout depth e entries
    have hlength := congrArg List.length htext
    simp only [List.length_append, List.length_cons, List.length_nil] at hlength
    have hread : entries? fuel ((renderEntries layout (depth + 1) (keyed (e :: entries))).toList ++
        ((layout.lineBreak depth).toList ++ '\x7d' :: rest)) = some (keyed (e :: entries), rest) :=
      entries?_renderEntries hlayout (hlayout.lineBreak depth) h (by omega)
    obtain ⟨tail, hskip⟩ := exists_head_renderEntries hlayout (depth + 1) e entries
      ((layout.lineBreak depth).toList ++ '\x7d' :: rest)
    rw [← entries?_skipSpace, hskip] at hread
    have hopen (cs : List Char) : skipSpace ('\x7b' :: cs) = '\x7b' :: cs :=
      skipSpace_of_head cs (by decide)
    rw [htext, record_eq]
    simp [value?, hopen, hskip, hread]

theorem IsProper.isRead (hlayout : layout.IsBlank) {j : Json} (h : IsProper j) :
    IsRead layout j := by
  induction h with
  | null => exact isRead_null
  | bool b => exact isRead_bool b
  | number h => exact isRead_number h
  | text s => exact isRead_text s
  | array h ih => exact isRead_array hlayout h ih
  | record _ ih => exact isRead_record hlayout ih

/-- A document is read back from its text. -/
theorem read?_render (hlayout : layout.IsBlank) {j : Json} (h : IsProper j) :
    read? (render layout 0 j) = some j := by
  have hread : value? ((render layout 0 j).toList.length + 1) (render layout 0 j).toList =
      some (j, []) := by
    simpa only [List.append_nil] using h.isRead hlayout 0 _ [] (Nat.lt_succ_self _) ends_nil
  unfold read?
  simp only [hread]
  rfl

end AnswerKey.Json

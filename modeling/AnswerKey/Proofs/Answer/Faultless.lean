import AnswerKey.Answer.Checked
import AnswerKey.Proofs.Answer.BoxSearch
import AnswerKey.Proofs.Token.Boundaries

/-! The reading of an answer never comes to a fault. -/
namespace AnswerKey.Checked

open Answer (splitAtClose splitMembers depthAfterAll)
open Lexeme (Reads row tokensFrom)
open Text (size IsBoundary)

/-! Cuts. -/

theorem cut_append (a b rest : List Char) :
    cut (size a) (size a + size b) (a ++ (b ++ rest)) = .ok b := by
  rw [cut, Answer.Scan.cut_append]
  rfl

theorem cut_of_boundaries {cs : List Char} {p q : Nat} (hp : IsBoundary cs p)
    (hq : IsBoundary cs q) (hle : p ≤ q) : cut p q cs = .ok (Text.slice p q cs) := by
  obtain ⟨a, z, hcs, rfl⟩ := hp
  obtain ⟨a', z', hcs', rfl⟩ := hq
  have prefixes : a <+: cs ∧ a' <+: cs := ⟨⟨z, hcs.symm⟩, ⟨z', hcs'.symm⟩⟩
  obtain ⟨b, rfl⟩ : a <+: a' := by
    obtain h | ⟨b, rfl⟩ := List.prefix_or_prefix_of_prefix prefixes.1 prefixes.2
    · exact h
    · have hb : b = [] := by
        by_contra hb
        have := Lexeme.size_pos hb
        rw [Text.size_append] at hle
        omega
      simp [hb]
  rw [hcs', List.append_assoc, Text.size_append, cut_append, Text.slice_append]

theorem minus_of_le {n m : Nat} (h : m ≤ n) : minus n m = .ok (n - m) := if_neg (by omega)

theorem brace?_append {word rest : List Char} (h : '{' ∉ word) :
    brace? (word ++ '{' :: rest) = some (size word) := by
  have word_eq : (word ++ '{' :: rest).takeWhile (· != '{') = word := by
    refine (takeWhile_of_all (fun c hc => ?_) (by simp)).1
    simpa using fun heq : c = '{' => h (heq ▸ hc)
  rw [brace?, if_pos (by simp), word_eq]

/-! Lexemes. -/

theorem cut_behind_backslash (name rest : List Char) :
    cut 1 (size ('\\' :: name)) ('\\' :: (name ++ rest)) = .ok name :=
  cut_append ['\\'] name rest

theorem recut_command (name : List Char) : recut (.command name) = .ok (.command name) := by
  have hcut := cut_behind_backslash name []
  rw [List.append_nil] at hcut
  simp only [recut, Lexeme.text, hcut]
  rfl

theorem recut_wrapped {word : List Char} (content : List Char) (h : '{' ∉ '\\' :: word) :
    recut (.wrapped word content) = .ok (.wrapped word content) := by
  have htext : (Lexeme.wrapped word content).text = '\\' :: word ++ '{' :: (content ++ ['}']) := by
    simp [Lexeme.text]
  have hopen : size ('\\' :: word) + 1 = size ('\\' :: word ++ ['{']) := by
    rw [Text.size_append]
    rfl
  have hlast : minus (size (Lexeme.wrapped word content).text) 1 =
      .ok (size ('\\' :: word ++ ['{']) + size content) := by
    have hsize : size (Lexeme.wrapped word content).text =
        size ('\\' :: word ++ ['{']) + size content + 1 := by
      rw [htext, show '\\' :: word ++ '{' :: (content ++ ['}']) =
        '\\' :: word ++ ['{'] ++ content ++ ['}'] by simp, Text.size_append, Text.size_append]
      rfl
    rw [hsize, minus_of_le (by omega), Nat.add_sub_cancel]
  have hcut := cut_append ('\\' :: word ++ ['{']) content ['}']
  rw [show '\\' :: word ++ ['{'] ++ (content ++ ['}']) = (Lexeme.wrapped word content).text by
    simp [Lexeme.text]] at hcut
  have hbrace : brace? (Lexeme.wrapped word content).text = some (size ('\\' :: word)) := by
    rw [htext, brace?_append h]
  simp only [recut, hlast, hbrace, Option.getD_some, hopen]
  simp only [bind, Except.bind, hcut]
  rfl

theorem recut_unterminated {word : List Char} (content : List Char) (h : '{' ∉ '\\' :: word) :
    recut (.unterminated word content) = .ok (.unterminated word content) := by
  have hcut := cut_behind_backslash word ('{' :: content)
  have hbrace : brace? ('\\' :: word ++ '{' :: content) = some (size ('\\' :: word)) :=
    brace?_append h
  simp only [List.cons_append] at hbrace
  simp only [recut, Lexeme.text, List.cons_append, hbrace, Option.getD_some, hcut]
  rfl

theorem recut_afterBackslash (cs : List Char) :
    recut (Lexeme.afterBackslash cs) = .ok (Lexeme.afterBackslash cs) := by
  have hword : '{' ∉ '\\' :: cs.takeWhile Char.isAlpha := by
    intro h
    obtain h | h := List.mem_cons.1 h
    · exact absurd h (by decide)
    · exact absurd (all_takeWhile _ _ _ h) (by decide)
  unfold Lexeme.afterBackslash
  dsimp only
  split
  · split
    · rfl
    · rfl
    · split
      · rfl
      · rfl
    · rfl
  · split
    · split
      · exact recut_wrapped _ hword
      · exact recut_unterminated _ hword
    · exact recut_command _

theorem recut_scan (c : Char) (cs : List Char) :
    recut (Lexeme.scan c cs) = .ok (Lexeme.scan c cs) := by
  unfold Lexeme.scan
  dsimp only
  split
  · rfl
  · split
    · rfl
    · split
      · split
        · rfl
        · rfl
      · exact recut_afterBackslash cs
      · rfl
      · rfl
      · rfl
      · split
        · rfl
        · split
          · rfl
          · rfl

theorem lexFrom_eq (position skip : Nat) (cs : List Char) :
    lexFrom position skip cs = .ok (Token.lexFrom position skip cs) := by
  induction cs generalizing position skip with
  | nil => rfl
  | cons c cs ih =>
    cases skip with
    | succ skip => exact ih _ _
    | zero =>
      simp only [lexFrom, Token.lexFrom, recut_scan]
      simp only [bind, Except.bind]
      cases (Lexeme.scan c cs).tokens position with
      | error e => rfl
      | ok first =>
        simp only [ih]
        cases Token.lexFrom _ _ cs with
        | error e => rfl
        | ok rest => rfl

/-! The box. -/

theorem closeIndex_eq (depth index : Nat) (ts : List Token) :
    closeIndex (depth + 1) index ts =
      .ok ((splitAtClose depth ts).map fun (before, _, _) => before.length + index) := by
  induction ts generalizing depth index with
  | nil => rfl
  | cons t ts ih =>
    have inside (depth : Nat) : closeIndex (depth + 1) (index + 1) ts =
        .ok (((splitAtClose depth ts).map fun (before, close, after) =>
          (t :: before, close, after)).map fun (before, _, _) => before.length + index) := by
      rw [ih, Option.map_map]
      congr 2
      funext r
      simp [Nat.add_assoc, Nat.add_comm 1]
    by_cases ho : t.kind = .opening .curly
    · simp only [closeIndex, splitAtClose, ho]
      exact inside (depth + 1)
    by_cases hc : t.kind = .closing .curly
    · cases depth with
      | zero => simp [closeIndex, splitAtClose, hc, minus, bind, Except.bind, pure, Except.pure]
      | succ depth =>
        have further : closeIndex (depth + 1 + 1) index (t :: ts) =
            closeIndex (depth + 1) (index + 1) ts := by
          simp [closeIndex, hc, minus_of_le, bind, Except.bind]
        rw [further]
        simp only [splitAtClose, hc]
        exact inside depth
    have further : closeIndex (depth + 1) index (t :: ts) =
        closeIndex (depth + 1) (index + 1) ts := by
      rw [closeIndex.eq_def]
      simp only
    rw [further, Answer.splitAtClose_other ho hc]
    exact inside depth

theorem closeIndex_cons {brace : Token} (opened : brace.kind = .opening .curly)
    (inner : List Token) : closeIndex 0 1 (brace :: inner) =
      .ok ((splitAtClose 0 inner).map fun (before, _, _) => before.length + 2) := by
  simp only [closeIndex, opened]
  exact closeIndex_eq 0 2 inner

theorem unbox_closed {t brace close : Token} {before after : List Token} (limit : Nat)
    (boxed : t.kind = .boxed) (opened : brace.kind = .opening .curly)
    (hsplit : splitAtClose 0 (before ++ close :: after) = some (before, close, after)) :
    unbox (t :: brace :: (before ++ close :: after)) limit =
      .ok (Answer.unbox (t :: brace :: (before ++ close :: after)) limit) := by
  have hclose := closeIndex_cons opened (before ++ close :: after)
  rw [hsplit, Option.map_some] at hclose
  cases after with
  | cons trailing after =>
    simp [unbox, Answer.unbox, boxed, opened, hclose, hsplit, bind, Except.bind, pure, Except.pure]
  | nil =>
    cases before with
    | nil =>
      simp only [List.nil_append] at hclose hsplit
      simp [unbox, Answer.unbox, boxed, opened, hclose, hsplit, tokenAt, bind, Except.bind, pure,
        Except.pure]
    | cons first before =>
      simp only [List.cons_append] at hclose hsplit
      simp [unbox, Answer.unbox, boxed, opened, hclose, hsplit, tokenAt, dropFirst, bind,
        Except.bind, pure, Except.pure]

theorem unbox_eq (tokens : List Token) (limit : Nat) :
    unbox tokens limit = .ok (Answer.unbox tokens limit) := by
  match tokens with
  | [] => rfl
  | [t] => by_cases boxed : t.kind = .boxed <;> simp [unbox, Answer.unbox, boxed]
  | t :: brace :: inner =>
    by_cases boxed : t.kind = .boxed
    · by_cases opened : brace.kind = .opening .curly
      · cases hsplit : splitAtClose 0 inner with
        | none =>
          have hclose := closeIndex_cons opened inner
          rw [hsplit, Option.map_none] at hclose
          simp [unbox, Answer.unbox, boxed, opened, hclose, hsplit, bind, Except.bind, pure,
            Except.pure]
        | some parts =>
          obtain ⟨before, close, after⟩ := parts
          obtain ⟨rfl, -, -⟩ := Answer.splitAtClose_eq_some hsplit
          exact unbox_closed limit boxed opened hsplit
      · simp [unbox, Answer.unbox, boxed, opened]
    · simp [unbox, Answer.unbox, boxed]

/-! Members. -/

theorem sourceOf_eq {input : String} {ls : List Lexeme} {part : List Token}
    (h : Reads input.toList ls) (hpart : part.Sublist (tokensFrom 0 ls)) :
    sourceOf input part = .ok (Answer.sourceOf input part) := by
  cases hfirst : part.head? with
  | none => simp [sourceOf, Answer.sourceOf, hfirst]
  | some first =>
    cases hlast : part.getLast? with
    | none => simp [sourceOf, Answer.sourceOf, hfirst, hlast]
    | some last =>
      have place {t : Token} (ht : t ∈ part) := Token.standsIn_of_mem h (hpart.subset ht)
      have first_mem := List.mem_of_mem_head? hfirst
      have last_mem := List.mem_of_getLast? hlast
      have hle : first.start ≤ last.stop := by
        have hpair := (Answer.ordered_tokensFrom h.legal 0).1.sublist hpart
        cases part with
        | nil => cases hfirst
        | cons t rest =>
          obtain rfl : t = first := by simpa using hfirst
          obtain rfl | hrest := List.mem_cons.1 last_mem
          · exact Nat.le_of_lt (place first_mem).nonempty
          · have := (List.pairwise_cons.1 hpair).1 last hrest
            have := (place first_mem).nonempty
            have := (place last_mem).nonempty
            omega
      have hcut := cut_of_boundaries (place first_mem).start (place last_mem).stop hle
      simp only [sourceOf, Answer.sourceOf, hfirst, hlast, hcut]
      rfl

theorem mapM_eq_ok {α β : Type} {f : α → Except Fault β} {g : α → β} {xs : List α}
    (h : ∀ x ∈ xs, f x = .ok (g x)) : xs.mapM f = .ok (xs.map g) := by
  induction xs with
  | nil => rfl
  | cons x xs ih =>
    rw [List.mapM_cons, h x List.mem_cons_self, ih fun y hy => h y (List.mem_cons_of_mem x hy)]
    rfl

theorem read_eq (declared : List String) (input : String) :
    read declared input = .ok (Answer.read declared input) := by
  simp only [read, Answer.read, lexFrom_eq, unbox_eq]
  simp only [bind, Except.bind]
  cases hlex : Token.lex input with
  | error e =>
    rw [Token.lex] at hlex
    rw [hlex]
    rfl
  | ok ts =>
    obtain ⟨ls, hls, rfl⟩ := Token.lexFrom_eq_ok.1 hlex
    rw [Token.lex] at hlex
    rw [hlex]
    by_cases hne : tokensFrom 0 ls = []
    · simp [hne, Except.mapError, pure, Except.pure]
    · simp only [hne, if_false, Except.mapError]
      cases hu : Answer.unbox (tokensFrom 0 ls) (size input.toList) with
      | error e => rfl
      | ok r =>
        obtain ⟨inner, stop⟩ := r
        have among := Answer.sublist_of_unboxed (Answer.unbox_eq_ok.1 hu)
        have member {m : List Token × Nat} (hm : m ∈ splitMembers stop 0 inner) :
            (do
              let source ← sourceOf input m.1
              return (⟨source, Answer.readMember declared m.1 m.2⟩ : Member)) =
            .ok ⟨Answer.sourceOf input m.1, Answer.readMember declared m.1 m.2⟩ := by
          rw [sourceOf_eq hls ((Answer.sublist_of_mem_splitMembers hm).trans among)]
          rfl
        have sources := mapM_eq_ok fun m hm => member hm
        simp only [bind, Except.bind] at sources
        simp only [sources]
        rfl

/-! The grammar. -/

theorem size_eq_one {d : Char} {others : List Char} (digit : d.isDigit = true) :
    size (d :: others) = 1 ↔ others = [] := by
  rw [size, Text.utf8Size_of_isDigit digit]
  constructor
  · intro h
    by_contra hothers
    have := Lexeme.size_pos hothers
    omega
  · rintro rfl
    rfl

theorem takeDigit_eq (c : Cursor) : takeDigit? c = .ok c.takeDigit? := by
  unfold takeDigit? Cursor.takeDigit?
  cases c.tokens with
  | nil => rfl
  | cons t rest =>
    dsimp only
    split
    · cases t.text.toList with
      | nil => rfl
      | cons d others =>
        by_cases digit : d.isDigit = true
        · simp [Option.filter, digit, size_eq_one digit, apply_ite Except.ok]
        · simp [Option.filter, digit]
    · rfl

theorem startsApplication_eq (declared : List String) (mode : Grammar.Mode) (c : Cursor) :
    startsApplication declared mode c = .ok (Grammar.startsApplication declared mode c) := by
  unfold startsApplication
  split
  · next here =>
    obtain ⟨t, rest, ht, -⟩ := Cursor.kind_eq_some.1 here
    simp [tokenAt, ht, Grammar.startsApplication, here, Cursor.text, bind, Except.bind, pure,
      Except.pure]
  · rfl

end AnswerKey.Checked

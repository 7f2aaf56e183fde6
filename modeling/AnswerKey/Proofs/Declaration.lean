import AnswerKey.Declaration
import AnswerKey.Proofs.Answer.Sources
import AnswerKey.Proofs.Grading.Draws
import AnswerKey.Proofs.Grammar.Appending
import AnswerKey.Proofs.Token.Boundaries

/-! Declared names: what their declarations are made of, and that the text of each is
read as the symbol that was declared. -/
namespace AnswerKey

open Grammar (isWordPart symbolName symbolName_eq_ok WritesName SubscriptStep)
open Answer (Uncut isSeparator)
open Lexeme (Reads row tokensFrom)

namespace Declaration

/-- The tokens write the name: a symbol, alone or with a subscript that is one digit,
one symbol, or a braced run of numbers and symbols. -/
inductive NameTokens : List Token → String → Prop
  | plain {t : Token} (symbol : t.kind = .symbol) : NameTokens [t] t.text
  | digit {t mark v : Token} {d : Char} (symbol : t.kind = .symbol)
      (marked : mark.kind = .underscore) (number : v.kind = .number) (text : v.text.toList = [d])
      (isDigit : d.isDigit = true) : NameTokens [t, mark, v] (t.text ++ "_" ++ d.toString)
  | symbol {t mark v : Token} (symbol : t.kind = .symbol) (marked : mark.kind = .underscore)
      (below : v.kind = .symbol) : NameTokens [t, mark, v] (t.text ++ "_" ++ v.text)
  | braced {t mark opened closed : Token} {run : List Token} (symbol : t.kind = .symbol)
      (marked : mark.kind = .underscore) (opening : opened.kind = .opening .curly)
      (words : ∀ w ∈ run, isWordPart w = true) (nonempty : String.join (run.map (·.text)) ≠ "")
      (closing : closed.kind = .closing .curly) :
      NameTokens (t :: mark :: opened :: (run ++ [closed]))
        (t.text ++ "_" ++ String.join (run.map (·.text)))

/-- The declarations that tokens fall into, each with its tokens and its name. A
separator behind the last one declares nothing. -/
inductive Declares : List Token → List (List Token × String) → Prop
  | nil : Declares [] []
  | last {own : List Token} {name : String} (writes : NameTokens own name)
      (starts : ∀ t ∈ own.head?, startsName t = true) : Declares own [(own, name)]
  | cons {own rest : List Token} {name : String} {separator : Token}
      {declarations : List (List Token × String)} (writes : NameTokens own name)
      (starts : ∀ t ∈ own.head?, startsName t = true)
      (separated : isSeparator separator.kind = true) (more : Declares rest declarations) :
      Declares (own ++ separator :: rest) ((own, name) :: declarations)

variable {c after next : Cursor} {own ts : List Token} {name : String} {names : List String}

theorem NameTokens.ne_nil (h : NameTokens own name) : own ≠ [] := by
  cases h <;> simp

theorem tokens_skip (n : Nat) (c : Cursor) : (c.skip n).tokens = c.tokens.drop n := by
  induction n generalizing c with
  | zero => rfl
  | succ n ih =>
    rw [Cursor.skip, ih]
    cases h : c.tokens with
    | nil => simp [Cursor.next, h]
    | cons t rest => simp [Cursor.next, h]

theorem takeWhile_run {run rest : List Token} {closed : Token}
    (words : ∀ w ∈ run, isWordPart w = true) (closing : closed.kind = .closing .curly) :
    (run ++ closed :: rest).takeWhile isWordPart = run :=
  (takeWhile_of_all words (by simp [isWordPart, closing])).1

theorem subscriptStep_braced {run rest : List Token} {opened closed : Token}
    (h : c.tokens = opened :: (run ++ closed :: rest)) (opening : opened.kind = .opening .curly)
    (words : ∀ w ∈ run, isWordPart w = true) (nonempty : String.join (run.map (·.text)) ≠ "")
    (closing : closed.kind = .closing .curly) :
    ∃ last, SubscriptStep c (String.join (run.map (·.text))) last ∧ last.tokens = rest := by
  have inside := Cursor.tokens_next_of_cons h
  have words' : run = c.next.tokens.takeWhile isWordPart := by
    rw [inside, takeWhile_run words closing]
  have behind : (c.next.skip run.length).tokens = closed :: rest := by
    rw [tokens_skip, inside, List.drop_left]
  exact ⟨_, .braced (Cursor.kind_eq_some.2 ⟨_, _, h, opening⟩) words' rfl nonempty rfl
    (Cursor.kind_eq_some.2 ⟨_, _, behind, closing⟩), Cursor.tokens_next_of_cons behind⟩

theorem NameTokens.writesName (h : NameTokens own name) : WritesName own name := by
  have subscripted {t mark : Token} {rest : List Token} {sub : String} {last : Cursor}
      (symbol : t.kind = .symbol) (marked : mark.kind = .underscore)
      (below : SubscriptStep (Cursor.start (t :: mark :: rest) 0).next.next sub last)
      (ends : last.tokens = []) : WritesName (t :: mark :: rest) (t.text ++ "_" ++ sub) :=
    ⟨last, symbolName_eq_ok.2 (.subscripted (congrArg some symbol) (congrArg some marked) below),
      ends⟩
  cases h with
  | plain symbol => exact ⟨_, symbolName_eq_ok.2 (.plain (congrArg some symbol) nofun), rfl⟩
  | digit symbol marked number text isDigit =>
    exact subscripted symbol marked
      (.digit (Cursor.takeDigit_eq_some.2 (.last rfl number text isDigit))) rfl
  | symbol symbol marked below =>
    exact subscripted symbol marked (.symbol (congrArg some below)) rfl
  | @braced t mark opened closed run symbol marked opening words nonempty closing =>
    obtain ⟨last, below, ends⟩ := subscriptStep_braced
      (c := (Cursor.start (t :: mark :: opened :: (run ++ [closed])) 0).next.next) rfl opening
      words nonempty closing
    exact subscripted symbol marked below ends

theorem tokens_of_subscript_braced {run : List Token}
    (opened : c.kind = some (.opening .curly)) (words : run = c.next.tokens.takeWhile isWordPart)
    (closed : (c.next.skip run.length).kind = some (.closing .curly)) :
    ∃ o e, c.tokens = o :: (run ++ e :: (c.next.skip run.length).next.tokens) ∧
      o.kind = .opening .curly ∧ (∀ w ∈ run, isWordPart w = true) ∧
      e.kind = .closing .curly := by
  obtain ⟨o, inner, ho, opening⟩ := Cursor.kind_eq_some.1 opened
  obtain ⟨e, behind, he, closing⟩ := Cursor.kind_eq_some.1 closed
  have inside := Cursor.tokens_next_of_cons ho
  have hwords : ∀ w ∈ run, isWordPart w = true := fun w hw =>
    List.all_eq_true.1 List.all_takeWhile w (words ▸ hw)
  obtain ⟨tail, rfl⟩ : run <+: inner := by
    rw [words, inside]
    exact List.takeWhile_prefix _
  have skipped := tokens_skip run.length c.next
  rw [he, inside, List.drop_left] at skipped
  rw [Cursor.tokens_next_of_cons he, ho, ← skipped]
  exact ⟨o, e, rfl, opening, hwords, closing⟩

theorem nameTokens_of_symbolName (h : symbolName c = .ok (name, after))
    (whole : after.kind ≠ some .number) :
    ∃ own, c.tokens = own ++ after.tokens ∧ NameTokens own name := by
  have text_eq {c : Cursor} {t : Token} {rest : List Token} (h : c.tokens = t :: rest) :
      c.text = t.text := by
    simp [Cursor.text, h]
  cases symbolName_eq_ok.1 h with
  | plain here bare =>
    obtain ⟨t, rest, ht, symbol⟩ := Cursor.kind_eq_some.1 here
    rw [text_eq ht, Cursor.tokens_next_of_cons ht]
    exact ⟨[t], ht, .plain symbol⟩
  | subscripted here mark below =>
    obtain ⟨t, rest, ht, symbol⟩ := Cursor.kind_eq_some.1 here
    obtain ⟨m, rest, hm, marked⟩ := Cursor.kind_eq_some.1 mark
    obtain rfl := (Cursor.tokens_next_of_cons ht).symm.trans hm
    have hrest := Cursor.tokens_next_of_cons hm
    rw [text_eq ht, ht]
    cases below with
    | @braced run _ after opened words joined nonempty stop closed =>
      subst joined stop
      obtain ⟨o, e, ho, opening, hwords, closing⟩ := tokens_of_subscript_braced opened words closed
      rw [← hrest, ho]
      exact ⟨_, by simp, .braced symbol marked opening hwords nonempty closing⟩
    | digit taken =>
      cases Cursor.takeDigit_eq_some.1 taken with
      | last here number text isDigit =>
        rw [← hrest, here, Cursor.tokens_next_of_cons here]
        exact ⟨_, by simp, .digit symbol marked number text isDigit⟩
      | more here number => exact absurd (congrArg some number) whole
    | symbol below =>
      obtain ⟨v, rest', hv, named⟩ := Cursor.kind_eq_some.1 below
      rw [text_eq hv, ← hrest, hv, Cursor.tokens_next_of_cons hv]
      exact ⟨_, by simp, .symbol symbol marked named⟩

theorem NameTokens.not_separator (h : NameTokens own name) :
    ∀ t ∈ own, isSeparator t.kind = false := by
  have word {w : Token} (hw : isWordPart w = true) : isSeparator w.kind = false := by
    obtain hk | hk : w.kind = .number ∨ w.kind = .symbol := by simpa [isWordPart] using hw
    all_goals rw [hk]; rfl
  cases h with
  | plain symbol => simp [symbol, isSeparator]
  | digit symbol marked number => simp [symbol, marked, number, isSeparator]
  | symbol symbol marked below => simp [symbol, marked, below, isSeparator]
  | braced symbol marked opening words nonempty closing =>
    simp only [List.forall_mem_cons, List.forall_mem_append]
    exact ⟨by rw [symbol]; rfl, by rw [marked]; rfl, by rw [opening]; rfl,
      fun w hw => word (words w hw), by rw [closing]; rfl, by simp⟩

/-! Lists of declarations. -/

theorem isSeparator_iff {k : Token.Kind} : isSeparator k = true ↔ k = .comma ∨ k = .semicolon := by
  constructor
  · intro h
    cases k with
    | comma => exact .inl rfl
    | semicolon => exact .inr rfl
    | _ => cases h
  · rintro (rfl | rfl) <;> rfl

theorem afterName_eq_ok : afterName c = .ok next ↔
    (c.tokens = [] ∧ c = next) ∨
      ∃ s rest, c.tokens = s :: rest ∧ isSeparator s.kind = true ∧ c.next = next := by
  unfold afterName
  cases h : c.tokens with
  | nil => simp
  | cons s rest =>
    have hk : c.kind = some s.kind := Cursor.kind_eq_some.2 ⟨s, rest, h, rfl⟩
    have hs : (decide (c.kind = some .comma) || decide (c.kind = some .semicolon)) =
        isSeparator s.kind := by
      rw [Bool.eq_iff_iff, isSeparator_iff, Bool.or_eq_true, decide_eq_true_iff,
        decide_eq_true_iff, hk, Option.some.injEq, Option.some.injEq]
    rw [if_neg (List.cons_ne_nil s rest), hs]
    split
    · next separator => simp [separator]
    · next other => simp [other]

theorem namesFrom_eq_ok : namesFrom c = .ok names ↔
    (c.tokens = [] ∧ names = []) ∨
      ∃ t rest name after next more, c.tokens = t :: rest ∧ startsName t = true ∧
        symbolName c = .ok (name, after) ∧ afterName after = .ok next ∧
        namesFrom next = .ok more ∧ names = name :: more := by
  constructor
  · intro h
    rw [namesFrom] at h
    split at h
    · next hc =>
      cases h
      exact .inl ⟨hc, rfl⟩
    · next t rest hc =>
      split at h
      · next starts =>
        split at h
        · cases h
        · next name after hn =>
          split at h
          · cases h
          · next next hs =>
            obtain ⟨more, hmore, rfl⟩ := map_eq_ok.1 h
            exact .inr ⟨t, rest, name, after, next, more, hc, starts, hn, hs, hmore, rfl⟩
      · cases h
  · rintro (⟨hc, rfl⟩ | ⟨t, rest, name, after, next, more, hc, starts, hn, hs, hmore, rfl⟩)
    · rw [namesFrom]
      split
      · rfl
      · next hcons => simp [hc] at hcons
    · rw [namesFrom]
      split
      · next hnil => simp [hc] at hnil
      · next u us hcons =>
        obtain ⟨rfl, rfl⟩ := List.cons.inj (hc.symm.trans hcons)
        rw [if_pos starts]
        split
        · next e he => simp [hn] at he
        · next name' after' hn' =>
          obtain ⟨rfl, rfl⟩ := Prod.mk.inj (Except.ok.inj (hn.symm.trans hn'))
          split
          · next e he => simp [hs] at he
          · next next' hs' =>
            obtain rfl := Except.ok.inj (hs.symm.trans hs')
            rw [hmore]
            rfl

theorem NameTokens.symbolName {tail : List Token} (h : NameTokens own name)
    (starts : ∀ t ∈ own.head?, startsName t = true)
    (separated : ∀ t ∈ tail.head?, isSeparator t.kind = true) (hc : c.tokens = own ++ tail) :
    ∃ t rest after, c.tokens = t :: rest ∧ startsName t = true ∧
      Grammar.symbolName c = .ok (name, after) ∧ after.tokens = tail := by
  have trailing : ∀ t ∈ tail.head?, t.kind.isTrailing = true := by
    intro t ht
    obtain hk | hk := isSeparator_iff.1 (separated t ht)
    all_goals rw [hk]; rfl
  have uncaret : ∀ t ∈ tail.head?, t.kind ≠ .caret := by
    intro t ht
    obtain hk | hk := isSeparator_iff.1 (separated t ht)
    all_goals simp [hk]
  obtain ⟨after, hn, ha⟩ :=
    Grammar.symbolName_append trailing uncaret h.writesName c.previousStop c.limit
  rw [← hc] at hn
  cases own with
  | nil => exact absurd rfl h.ne_nil
  | cons t rest => exact ⟨t, rest ++ tail, after, hc, starts t rfl, hn, ha⟩

theorem Declares.eq_nil {ds : List (List Token × String)} (h : Declares [] ds) : ds = [] := by
  generalize hts : ([] : List Token) = ts at h
  cases h with
  | nil => rfl
  | last writes => exact absurd hts.symm writes.ne_nil
  | cons => simp at hts

theorem exists_own {t : Token} {rest : List Token} (hc : c.tokens = t :: rest)
    (starts : startsName t = true) (hname : symbolName c = .ok (name, after))
    (whole : after.kind ≠ some .number) :
    ∃ own, c.tokens = own ++ after.tokens ∧ NameTokens own name ∧
      ∀ u ∈ own.head?, startsName u = true := by
  obtain ⟨own, hown, writes⟩ := nameTokens_of_symbolName hname whole
  refine ⟨own, hown, writes, ?_⟩
  cases own with
  | nil => exact absurd rfl writes.ne_nil
  | cons u us =>
    obtain ⟨rfl, -⟩ := List.cons.inj (hc.symm.trans hown)
    simpa using starts

theorem exists_declares (h : namesFrom c = .ok names) :
    ∃ ds, Declares c.tokens ds ∧ names = ds.map (·.2) := by
  -- Each name takes a token at least, so that fewer tokens are left behind it.
  induction hn : c.tokens.length using Nat.strongRecOn generalizing c names with
  | _ n ih =>
    obtain ⟨hc, rfl⟩ | ⟨t, rest, name, after, next, more, hc, starts, hname, hafter, hmore, rfl⟩ :=
      namesFrom_eq_ok.1 h
    · exact ⟨[], hc ▸ .nil, rfl⟩
    obtain ⟨ds, hds, rfl⟩ := ih next.tokens.length
      (hn ▸ Nat.lt_of_le_of_lt (length_of_afterName hafter) (length_of_symbolName hname))
      hmore rfl
    obtain ⟨hend, rfl⟩ | ⟨s, behind, hs, separator, rfl⟩ := afterName_eq_ok.1 hafter
    · obtain ⟨own, hown, writes, hstarts⟩ := exists_own hc starts hname
        (by simp [Cursor.kind, Cursor.kindAt, hend])
      rw [hend] at hds hown
      obtain rfl := hds.eq_nil
      rw [hown, List.append_nil]
      exact ⟨_, .last writes hstarts, rfl⟩
    · have hk : after.kind = some s.kind := Cursor.kind_eq_some.2 ⟨s, behind, hs, rfl⟩
      obtain ⟨own, hown, writes, hstarts⟩ := exists_own hc starts hname (by
        rw [hk]
        intro number
        simp [Option.some.inj number, isSeparator] at separator)
      rw [Cursor.tokens_next_of_cons hs] at hds
      rw [hown, hs]
      exact ⟨_, .cons writes hstarts separator hds, rfl⟩

theorem namesFrom_of_declares {ds : List (List Token × String)} (h : Declares c.tokens ds) :
    namesFrom c = .ok (ds.map (·.2)) := by
  generalize hc : c.tokens = ts at h
  induction h generalizing c with
  | nil => exact namesFrom_eq_ok.2 (.inl ⟨hc, rfl⟩)
  | @last own name writes starts =>
    have bare : ∀ t ∈ ([] : List Token).head?, isSeparator t.kind = true := by simp
    obtain ⟨t, rest, after, ht, hstarts, hname, hafter⟩ :=
      writes.symbolName starts bare (by simpa using hc)
    exact namesFrom_eq_ok.2 (.inr ⟨t, rest, name, after, after, [], ht, hstarts, hname,
      afterName_eq_ok.2 (.inl ⟨hafter, rfl⟩), namesFrom_eq_ok.2 (.inl ⟨hafter, rfl⟩), rfl⟩)
  | @cons own rest name separator ds writes starts separated _ ih =>
    obtain ⟨t, others, after, ht, hstarts, hname, hafter⟩ := writes.symbolName starts
      (fun u hu => by cases hu; exact separated) hc
    exact namesFrom_eq_ok.2 (.inr ⟨t, others, name, after, after.next, _, ht, hstarts, hname,
      afterName_eq_ok.2 (.inr ⟨_, _, hafter, separated, rfl⟩),
      ih (Cursor.tokens_next_of_cons hafter), rfl⟩)

theorem namesFrom_iff_declares :
    namesFrom c = .ok names ↔ ∃ ds, Declares c.tokens ds ∧ names = ds.map (·.2) := by
  refine ⟨exists_declares, ?_⟩
  rintro ⟨ds, hds, rfl⟩
  exact namesFrom_of_declares hds

theorem Declares.infix_of_mem {ds : List (List Token × String)} {d : List Token × String}
    (h : Declares ts ds) (hd : d ∈ ds) : NameTokens d.1 d.2 ∧ d.1 <:+: ts := by
  induction h with
  | nil => cases hd
  | last writes =>
    obtain rfl := List.mem_singleton.1 hd
    exact ⟨writes, List.infix_rfl⟩
  | cons writes _ _ _ ih =>
    obtain rfl | hd := List.mem_cons.1 hd
    · exact ⟨writes, (List.prefix_append _ _).isInfix⟩
    · obtain ⟨writes', hinfix⟩ := ih hd
      exact ⟨writes', hinfix.trans ((List.suffix_cons _ _).trans
        (List.suffix_append _ _)).isInfix⟩

/-! The text of a declaration. -/

theorem uncut_of_not_separator (h : ∀ t ∈ ts, isSeparator t.kind = false) (depth : Int) :
    Uncut depth ts := by
  induction ts generalizing depth with
  | nil => trivial
  | cons t ts ih =>
    exact ⟨fun hcut => by simp [h t List.mem_cons_self] at hcut,
      ih (fun u hu => h u (List.mem_cons_of_mem t hu)) _⟩

theorem NameTokens.readMember (h : NameTokens own name) (declared : List String) (limit : Nat) :
    Answer.readMember declared own limit = .ok (.symbol name) := by
  have bare : ∀ t ∈ ([] : List Token).head?, t.kind.isTrailing = true := by simp
  obtain ⟨last, hname, hlast⟩ := Grammar.symbolName_append bare nofun h.writesName none limit
  rw [List.append_nil] at hname
  have hend : last.kind = none := by simp [Cursor.kind, Cursor.kindAt, hlast]
  refine Answer.readMember_eq_ok.2 ⟨h.ne_nil, .symbol name, ?_, by simp [Formula.toExpr]⟩
  refine Grammar.ofTokens_of_atom (Grammar.atom_eq_ok.2 (.symbolOrCall ?_
    (Grammar.symbolOrCall_eq_ok.2 (.symbol hname ?_)))) hlast
  · exact Grammar.kind_of_symbolName hname
  · simp [hend]

theorem NameTokens.read {source : String} {ls : List Lexeme} (h : NameTokens own name)
    (hls : Reads source.toList ls) (hown : own <:+: tokensFrom 0 ls) (declared : List String) :
    Answer.read declared (Answer.sourceOf source own) =
      .ok [⟨Answer.sourceOf source own, .ok (.symbol name)⟩] := by
  obtain ⟨before, after, hts⟩ := hown
  obtain ⟨ms, ns, rfl, hms, -⟩ := Token.exists_split hls.legal hts.symm
  obtain ⟨before', mid, rfl, -, hmid⟩ :=
    Token.exists_split (fun m hm => hls.legal m (by simp [hm])) hms
  rw [Nat.zero_add] at hmid
  have hreads : Reads (row mid) mid := hls.of_prefix.of_suffix
  have place : source = String.ofList (row before' ++ (row mid ++ row ns)) := by
    rw [← List.append_assoc, ← Lexeme.row_append, ← Lexeme.row_append, ← hls.text,
      String.ofList_toList]
  have hread := h.readMember declared 0
  have huncut := uncut_of_not_separator h.not_separator 0
  rw [← hmid] at hread huncut ⊢
  rw [place]
  exact Answer.read_sourceOf hreads huncut hread

theorem evaluate_symbol {b : Binding} (h : name ∈ b.names) (options : Evaluation.Options) :
    ∃ x, b.get? name = some x ∧ (Expr.symbol name).evaluate b options = .ok (.real x) := by
  obtain ⟨⟨name', y⟩, hentry, rfl⟩ := List.mem_map.1 h
  obtain ⟨x, hx⟩ : ∃ x, b.get? name' = some x := by
    refine Option.ne_none_iff_exists'.1 fun hnone => ?_
    simpa using List.lookup_eq_none_iff.1 hnone _ hentry
  refine ⟨x, hx, ?_⟩
  simp [Expr.evaluate, Expr.target, Binding.check, Expr.freeSymbols, Expr.freeNames, hx, Expr.eval,
    Evaluation.lookup]

/-- The declarations of a text declare distinct names. With these declared, the text
of each declaration is read as one member, the symbol of its name, and the symbol has
the value that is bound to the name, whether or not it is the name of a constant. -/
theorem read_declared {source : String} {names : List String}
    (h : Declaration.names source = .ok names) :
    names.Nodup ∧ ∃ ts, Token.lex source = .ok ts ∧
      (∃ ds, Declares ts ds ∧ names = distinct (ds.map (·.2))) ∧
      ∀ ds own name, Declares ts ds → (own, name) ∈ ds →
        Answer.read names (Answer.sourceOf source own) =
          .ok [⟨Answer.sourceOf source own, .ok (.symbol name)⟩] ∧
        ∀ (b : Binding) (options : Evaluation.Options), (∀ n, n ∈ b.names ↔ n ∈ names) →
          ∃ x, b.get? name = some x ∧ (Expr.symbol name).evaluate b options = .ok (.real x) := by
  simp only [Declaration.names, bind_eq_ok, mapError_eq_ok, pure_eq_ok] at h
  obtain ⟨ts, hlex, raw, hraw, rfl⟩ := h
  obtain ⟨ls, hls, rfl⟩ := Token.lexFrom_eq_ok.1 hlex
  obtain ⟨written, hwritten, hnames⟩ := namesFrom_iff_declares.1 hraw
  refine ⟨nodup_eraseDups _, _, hlex, ⟨written, hwritten, congrArg distinct hnames⟩, ?_⟩
  intro ds own name hds hd
  have hmem : name ∈ distinct raw := by
    obtain rfl := Except.ok.inj (hraw.symm.trans (namesFrom_iff_declares.2 ⟨ds, hds, rfl⟩))
    exact List.mem_eraseDups.2 (List.mem_map_of_mem hd)
  obtain ⟨writes, hinfix⟩ := hds.infix_of_mem hd
  exact ⟨writes.read hls hinfix _, fun b options hb => evaluate_symbol ((hb name).2 hmem) options⟩

theorem read_declared_constant : Declaration.names "\\varpi_1, i" = .ok ["pi_1", "i"] ∧
    Answer.read ["pi_1", "i"] "\\varpi_1" = .ok [⟨"\\varpi_1", .ok (.symbol "pi_1")⟩] ∧
    (Expr.symbol "i").evaluate ⟨[("i", 7), ("pi_1", 2)]⟩ {} = .ok (.real 7) := by
  have names : Declaration.names "\\varpi_1, i" = .ok ["pi_1", "i"] :=
    toOption_eq_some.1 (by decide +kernel)
  obtain ⟨-, ts, hlex, -, hread⟩ := read_declared names
  have letter : NameTokens [⟨.symbol, "pi", 0, 6⟩, ⟨.underscore, "_", 6, 7⟩, ⟨.number, "1", 7, 8⟩]
      "pi_1" := .digit rfl rfl rfl rfl (by rfl : '1'.isDigit = true)
  have unit : NameTokens [⟨.symbol, "i", 10, 11⟩] "i" := .plain rfl
  have comma : isSeparator (Token.mk .comma "," 8 9).kind = true := rfl
  have declares := Declares.cons letter (by decide) comma (.last unit (by decide))
  have tokens : Token.lex "\\varpi_1, i" = .ok [⟨.symbol, "pi", 0, 6⟩, ⟨.underscore, "_", 6, 7⟩,
      ⟨.number, "1", 7, 8⟩, ⟨.comma, ",", 8, 9⟩, ⟨.symbol, "i", 10, 11⟩] := rfl
  obtain rfl := Except.ok.inj (hlex.symm.trans tokens)
  obtain ⟨hletter, -⟩ := hread _ _ _ declares List.mem_cons_self
  obtain ⟨-, hunit⟩ := hread _ _ _ declares (List.mem_cons_of_mem _ List.mem_cons_self)
  obtain ⟨x, hx, hvalue⟩ := hunit ⟨[("i", 7), ("pi_1", 2)]⟩ {} (by simp [Binding.names, or_comm])
  obtain rfl := Option.some.inj (hx.symm.trans rfl)
  exact ⟨names, hletter, hvalue⟩

end Declaration

end AnswerKey

import AnswerKey.Proofs.Answer.Dividing

/-! What the box around an answer is for its lexemes, and that no other box is
left in an answer whose members are all read. -/
namespace AnswerKey

open Lexeme (Reads Silent row tokensFrom tokensFrom_none tokensFrom_one tokensFrom_silent)

theorem Cursor.Passes.not_boxed {c c' : Cursor} (h : c.Passes c')
    (hc : ∀ t ∈ c'.tokens, t.kind ≠ .boxed) : ∀ t ∈ c.tokens, t.kind ≠ .boxed := by
  induction h with
  | refl => exact hc
  | @step c c' k here plain _ ih =>
    obtain ⟨t, rest, ht, rfl⟩ := kind_eq_some.1 here
    have hrest := ih hc
    simp only [Cursor.next, ht] at hrest
    rw [ht, List.forall_mem_cons]
    refine ⟨?_, hrest⟩
    intro hk
    simp [hk, Token.Kind.isPlain] at plain
  | @digit c middle c' digit taken _ ih =>
    obtain ⟨t, rest, ht, hk⟩ := kind_eq_some.1 (kind_of_takeDigit taken)
    have hrest := ih hc
    obtain rfl | hsame := kinds_of_takeDigit taken
    · simp only [Cursor.next, ht] at hrest
      rw [ht, List.forall_mem_cons]
      exact ⟨by simp [hk], hrest⟩
    · intro u hu
      have hmem : u.kind ∈ middle.tokens.map (·.kind) := hsame ▸ List.mem_map_of_mem hu
      obtain ⟨v, hv, hvk⟩ := List.mem_map.1 hmem
      exact hvk ▸ hrest v hv
  | @braced c middle c' opened _ closed _ inside ih =>
    obtain ⟨t, rest, ht, hk⟩ := kind_eq_some.1 opened
    obtain ⟨t', rest', ht', hk'⟩ := kind_eq_some.1 closed
    have hrest := ih hc
    simp only [Cursor.next, ht'] at hrest
    have hmiddle : ∀ t ∈ middle.tokens, t.kind ≠ .boxed := by
      rw [ht', List.forall_mem_cons]
      exact ⟨by simp [hk'], hrest⟩
    have hnext := inside hmiddle
    simp only [Cursor.next, ht] at hnext
    rw [ht, List.forall_mem_cons]
    exact ⟨by simp [hk], hnext⟩

namespace Answer

variable {declared : List String} {limit : Nat} {ts : List Token} {x : Expr}

theorem not_boxed_of_readMember (h : readMember declared ts limit = .ok x) :
    ∀ t ∈ ts, t.kind ≠ .boxed := by
  obtain ⟨-, f, hf, -⟩ := readMember_eq_ok.1 h
  obtain ⟨-, last, hpass, hlast⟩ := Formula.ofTokens_sound hf
  exact hpass.not_boxed (by simp [hlast])

theorem mem_splitMembers (limit : Nat) (depth : Int) {t : Token} (h : t ∈ ts)
    (ht : isSeparator t.kind = false) : ∃ m ∈ splitMembers limit depth ts, t ∈ m.1 := by
  induction ts generalizing depth with
  | nil => cases h
  | cons u ts ih =>
    by_cases hcut : depth = 0 ∧ isSeparator u.kind = true
    · rcases List.mem_cons.1 h with rfl | h
      · simp [ht] at hcut
      · obtain ⟨m, hm, htm⟩ := ih depth h
        simp only [splitMembers, if_pos hcut]
        exact ⟨m, List.mem_cons_of_mem _ hm, htm⟩
    · obtain ⟨part, stop, others, hrest, hcons⟩ := splitMembers_cons limit ts hcut
      rw [hcons]
      rcases List.mem_cons.1 h with rfl | h
      · exact ⟨_, List.mem_cons_self, List.mem_cons_self⟩
      · obtain ⟨m, hm, htm⟩ := ih (depthAfter depth u.kind) h
        rw [hrest] at hm
        rcases List.mem_cons.1 hm with rfl | hm
        · exact ⟨_, List.mem_cons_self, List.mem_cons_of_mem _ htm⟩
        · exact ⟨m, List.mem_cons_of_mem _ hm, htm⟩

def AllRead (declared : List String) (limit : Nat) (ts : List Token) : Prop :=
  ∀ m ∈ splitMembers limit 0 ts, ∃ x, readMember declared m.1 m.2 = .ok x

theorem AllRead.not_boxed (h : AllRead declared limit ts) : ∀ t ∈ ts, t.kind ≠ .boxed := by
  intro t ht hk
  obtain ⟨m, hm, htm⟩ := mem_splitMembers limit 0 ht (by simp [hk, isSeparator])
  obtain ⟨x, hx⟩ := h m hm
  exact not_boxed_of_readMember hx t htm hk

theorem splitAtClose_eq_some {depth : Nat} {before after : List Token} {close : Token}
    (h : splitAtClose depth ts = some (before, close, after)) :
    ts = before ++ close :: after ∧ close.kind = .closing .curly ∧
      bracesAfter depth before = some 0 := by
  induction ts generalizing depth before with
  | nil => simp [splitAtClose] at h
  | cons t ts ih =>
    by_cases ho : t.kind = .opening .curly
    · simp only [splitAtClose, ho, Option.map_eq_some_iff, Prod.exists, Prod.mk.injEq] at h
      obtain ⟨before, close, after, h, rfl, rfl, rfl⟩ := h
      obtain ⟨rfl, hclose, hbraces⟩ := ih h
      exact ⟨rfl, hclose, by rw [bracesAfter_opening ho, hbraces]⟩
    by_cases hc : t.kind = .closing .curly
    · cases depth with
      | zero =>
        simp only [splitAtClose, hc, Option.some.injEq, Prod.mk.injEq] at h
        obtain ⟨rfl, rfl, rfl⟩ := h
        exact ⟨rfl, hc, rfl⟩
      | succ depth =>
        simp only [splitAtClose, hc, Option.map_eq_some_iff, Prod.exists, Prod.mk.injEq] at h
        obtain ⟨before, close, after, h, rfl, rfl, rfl⟩ := h
        obtain ⟨rfl, hclose, hbraces⟩ := ih h
        exact ⟨rfl, hclose, by rw [bracesAfter_closing hc, hbraces]⟩
    rw [splitAtClose_other ho hc] at h
    simp only [Option.map_eq_some_iff, Prod.exists, Prod.mk.injEq] at h
    obtain ⟨before, close, after, h, rfl, rfl, rfl⟩ := h
    obtain ⟨rfl, hclose, hbraces⟩ := ih h
    exact ⟨rfl, hclose, by rw [bracesAfter_other ho hc, hbraces]⟩

/-- The ways in which a box is taken off: there is none, or it is all there is. -/
inductive Unboxed (ts : List Token) (limit : Nat) : List Token → Nat → Prop
  | plain (unboxed : ∀ t ∈ ts.head?, t.kind ≠ .boxed) : Unboxed ts limit ts limit
  | boxed {first brace close : Token} {inner : List Token}
      (tokens : ts = first :: brace :: (inner ++ [close])) (boxed : first.kind = .boxed)
      (opened : brace.kind = .opening .curly) (closed : close.kind = .closing .curly)
      (braces : bracesAfter 0 inner = some 0) (nonempty : inner ≠ []) :
      Unboxed ts limit inner close.start

theorem unbox_eq_ok {inner : List Token} {stop : Nat} :
    unbox ts limit = .ok (inner, stop) ↔ Unboxed ts limit inner stop := by
  constructor
  · intro h
    cases ts with
    | nil =>
      cases h
      exact .plain (by simp)
    | cons first rest =>
      simp only [unbox] at h
      split at h
      · next hfirst =>
        split at h
        · cases h
        · next brace rest =>
          split at h
          · next hbrace =>
            split at h
            · cases h
            · cases h
            · cases h
            · next before close hne hsplit =>
              cases h
              obtain ⟨rfl, hclose, hbraces⟩ := splitAtClose_eq_some hsplit
              exact .boxed rfl hfirst hbrace hclose hbraces fun h => hne h
          · cases h
      · next hfirst =>
        cases h
        refine .plain ?_
        rintro t ⟨⟩
        exact hfirst
  · intro h
    cases h with
    | plain unboxed => exact unbox_of_unboxed unboxed
    | boxed tokens boxed opened closed braces nonempty =>
      rw [tokens]
      exact unbox_of_boxed _ boxed opened closed braces nonempty

/-! The same for rows of lexemes. -/

theorem silent_of_nil {ls : List Lexeme} (h : ∀ l ∈ ls, l.IsLegal) {p : Nat}
    (hp : tokensFrom p ls = []) : Silent ls := by
  obtain hs | ⟨ms, core, ns, rfl, hms, hns, hcore⟩ := exists_core h
  · exact hs
  · obtain ⟨t, u, ht, -⟩ := hcore (p + Text.size (row ms))
    rw [tokensFrom_silent hms hns] at hp
    simp [hp] at ht

theorem exists_lexeme {ls : List Lexeme} (h : ∀ l ∈ ls, l.IsLegal) {p : Nat} {before after : List Token}
    {t : Token} (ht : tokensFrom p ls = before ++ t :: after) :
    ∃ ms l ns, ls = ms ++ l :: ns ∧ tokensFrom p ms = before ∧
      tokensFrom (p + Text.size (row ms) + Text.size l.text) ns = after ∧
      t.start = p + Text.size (row ms) ∧ t.stop = t.start + Text.size l.text ∧
      ∀ q, l.tokens q = .ok [⟨t.kind, t.text, q, q + Text.size l.text⟩] := by
  induction ls generalizing p before with
  | nil => simp [tokensFrom] at ht
  | cons l ls ih =>
    have hlegal : ∀ m ∈ ls, m.IsLegal := fun m hm => h m (List.mem_cons_of_mem l hm)
    obtain hl | ⟨kind, name, hl⟩ := Lexeme.tokens_eq_ok (h l List.mem_cons_self)
    · rw [tokensFrom_none hl] at ht
      obtain ⟨ms, m, ns, rfl, hms, hns, hstart, hstop, hm⟩ := ih hlegal ht
      refine ⟨l :: ms, m, ns, rfl, by rw [tokensFrom_none hl, hms], ?_, ?_, hstop, hm⟩
      · simpa [Nat.add_assoc] using hns
      · simpa [Nat.add_assoc] using hstart
    · rw [tokensFrom_one hl] at ht
      cases before with
      | nil =>
        obtain ⟨rfl, rfl⟩ := List.cons.inj ht
        exact ⟨[], l, ls, rfl, rfl, by simp [Text.size], by simp [Text.size], rfl, hl⟩
      | cons u before =>
        obtain ⟨hu, hrest⟩ := List.cons.inj ht
        obtain ⟨ms, m, ns, rfl, hms, hns, hstart, hstop, hm⟩ := ih hlegal hrest
        refine ⟨l :: ms, m, ns, rfl, by rw [tokensFrom_one hl, hms, hu], ?_, ?_, hstop, hm⟩
        · simpa [Nat.add_assoc] using hns
        · simpa [Nat.add_assoc] using hstart

structure LeftBy (t : Token) (l : Lexeme) (p : Nat) : Prop where
  start : t.start = p
  stop : t.stop = t.start + Text.size l.text
  tokens : ∀ q, l.tokens q = .ok [⟨t.kind, t.text, q, q + Text.size l.text⟩]

theorem exists_boxLexemes {ls : List Lexeme} (h : ∀ l ∈ ls, l.IsLegal) {p : Nat}
    {first brace close : Token} {inner : List Token}
    (tokens : tokensFrom p ls = first :: brace :: (inner ++ [close])) :
    ∃ ms l gap l' body l'' after, ls = ms ++ l :: (gap ++ l' :: (body ++ l'' :: after)) ∧
      (Silent ms ∧ Silent gap ∧ Silent after) ∧ LeftBy first l (p + Text.size (row ms)) ∧
      LeftBy brace l' (first.stop + Text.size (row gap)) ∧ tokensFrom brace.stop body = inner ∧
      LeftBy close l'' (brace.stop + Text.size (row body)) := by
  obtain ⟨ms, l, ns, rfl, hms, hns, hstart, hstop, hl⟩ := @exists_lexeme _ h _ [] _ _ tokens
  rw [← hstart, ← hstop] at hns
  have legal : ∀ m ∈ ns, m.IsLegal := fun m hm => h m (by simp [hm])
  obtain ⟨gap, l', ns', rfl, hgap, hns', hstart', hstop', hl'⟩ := @exists_lexeme _ legal _ [] _ _ hns
  rw [← hstart', ← hstop'] at hns'
  have legal' : ∀ m ∈ ns', m.IsLegal := fun m hm => legal m (by simp [hm])
  obtain ⟨body, l'', after, rfl, hbody, hafter, hstart'', hstop'', hl''⟩ := exists_lexeme legal' hns'
  have silent {xs : List Lexeme} {q : Nat} (hxs : ∀ x ∈ xs, x ∈ ms ++ l :: (gap ++ l' :: (body ++
      l'' :: after))) (hq : tokensFrom q xs = []) : Silent xs :=
    silent_of_nil (fun x hx => h x (hxs x hx)) hq
  exact ⟨ms, l, gap, l', body, l'', after, rfl,
    ⟨silent (by simp +contextual) hms, silent (by simp +contextual) hgap,
      silent (by simp +contextual) hafter⟩,
    ⟨hstart, hstop, hl⟩, ⟨hstart', hstop', hl'⟩, hbody, ⟨hstart'', hstop'', hl''⟩⟩

theorem tokensFrom_box {ms gap after : List Lexeme} {l l' l'' : Lexeme}
    {first brace close : Token} {p p' p'' : Nat} (silent : Silent ms ∧ Silent gap ∧ Silent after)
    (hl : LeftBy first l p) (hl' : LeftBy brace l' p') (hl'' : LeftBy close l'' p'')
    (body : List Lexeme) (q : Nat) :
    ∃ first' brace' close',
      tokensFrom q (ms ++ l :: (gap ++ l' :: (body ++ l'' :: after))) = first' :: brace' ::
        (tokensFrom (q + Text.size (row (ms ++ l :: (gap ++ [l'])))) body ++ [close']) ∧
      first'.kind = first.kind ∧ brace'.kind = brace.kind ∧ close'.kind = close.kind := by
  obtain ⟨hms, hgap, hafter⟩ := silent
  have hsize : q + Text.size (row (ms ++ l :: (gap ++ [l']))) =
      q + Text.size (row ms) + Text.size l.text + Text.size (row gap) + Text.size l'.text := by
    simp [Nat.add_assoc]
  rw [Lexeme.tokensFrom_append, hms, tokensFrom_one hl.tokens, Lexeme.tokensFrom_append, hgap,
    tokensFrom_one hl'.tokens, Lexeme.tokensFrom_append, tokensFrom_one hl''.tokens, hafter, hsize]
  exact ⟨_, _, _, rfl, rfl, rfl, rfl⟩

/-- A box that is taken off stands around a part of the row, wherever the row
stands. -/
theorem exists_body {cs : List Char} {ls : List Lexeme} (h : Reads cs ls) {p limit stop : Nat}
    {inner : List Token} (hu : unbox (tokensFrom p ls) limit = .ok (inner, stop)) :
    ∃ before body after, ls = before ++ (body ++ after) ∧
      inner = tokensFrom (p + Text.size (row before)) body ∧
      ∀ q limit, ∃ stop, unbox (tokensFrom q ls) limit =
        .ok (tokensFrom (q + Text.size (row before)) body, stop) := by
  cases unbox_eq_ok.1 hu with
  | plain unboxed =>
    refine ⟨[], ls, [], by simp, rfl, fun q limit => ⟨limit, unbox_of_unboxed fun t ht => ?_⟩⟩
    have hk := congrArg List.head? (kinds_of_alikeFrom (moved h p q))
    rw [List.head?_map, List.head?_map, ht] at hk
    obtain ⟨u, hu, huk⟩ := Option.map_eq_some_iff.1 hk.symm
    have huk : u.kind = t.kind := huk
    exact huk ▸ unboxed u hu
  | boxed tokens boxed opened closed braces nonempty =>
    obtain ⟨ms, l, gap, l', body, l'', after, rfl, silent, hl, hl', hbody, hl''⟩ :=
      exists_boxLexemes h.legal tokens
    have reads : Reads (row body) body := h.of_suffix.rest.of_suffix.rest.of_prefix
    have kinds (q : Nat) : (tokensFrom q body).map (·.kind) = inner.map (·.kind) :=
      hbody ▸ kinds_of_alikeFrom (moved reads _ q)
    refine ⟨ms ++ l :: (gap ++ [l']), body, l'' :: after, by simp, ?_, fun q limit => ?_⟩
    · rw [← hbody, hl'.stop, hl'.start, hl.stop, hl.start]
      simp [Nat.add_assoc]
    · obtain ⟨first', brace', close', htokens, hfirst, hbrace, hclose⟩ :=
        tokensFrom_box silent hl hl' hl'' body q
      rw [htokens]
      refine ⟨_, unbox_of_boxed _ (hfirst.trans boxed) (hbrace.trans opened)
        (hclose.trans closed) ?_ fun hnil => ?_⟩
      · rw [bracesAfter_congr (kinds _), braces]
      · have hk := kinds (q + Text.size (row (ms ++ l :: (gap ++ [l']))))
        rw [hnil] at hk
        exact nonempty (List.map_eq_nil_iff.1 hk.symm)

end Answer

end AnswerKey

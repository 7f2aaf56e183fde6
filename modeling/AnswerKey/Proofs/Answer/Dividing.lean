import AnswerKey.Proofs.Answer.Boxing

/-! The members of a row of lexemes that stands somewhere in a text. Where in the
text it stands is of no account when all of them are read. -/
namespace AnswerKey.Answer

open Lexeme (Reads Silent row row_cons row_nil row_append tokensFrom tokensFrom_none tokensFrom_one
  tokensFrom_silent)

theorem exists_core {ls : List Lexeme} (h : ∀ l ∈ ls, l.IsLegal) :
    Silent ls ∨ ∃ ms core ns, ls = ms ++ core ++ ns ∧ Silent ms ∧ Silent ns ∧
      ∀ p, ∃ t u, (tokensFrom p core).head? = some t ∧ (tokensFrom p core).getLast? = some u ∧
        t.start = p ∧ u.stop = p + Text.size (row core) := by
  induction ls with
  | nil => exact .inl fun _ => rfl
  | cons l ls ih =>
    obtain hl | ⟨kind, name, hl⟩ := Lexeme.tokens_eq_ok (h l List.mem_cons_self)
    · obtain hs | ⟨ms, core, ns, rfl, hms, hns, hcore⟩ :=
        ih fun m hm => h m (List.mem_cons_of_mem l hm)
      · exact .inl (Silent.cons hl hs)
      · exact .inr ⟨l :: ms, core, ns, by simp, Silent.cons hl hms, hns, hcore⟩
    · obtain hs | ⟨ms, core, ns, rfl, hms, hns, hcore⟩ :=
        ih fun m hm => h m (List.mem_cons_of_mem l hm)
      · refine .inr ⟨[], [l], ls, rfl, fun _ => rfl, hs, fun p => ?_⟩
        rw [tokensFrom_one hl]
        refine ⟨_, ⟨kind, name, p, p + Text.size l.text⟩, rfl, rfl, rfl, ?_⟩
        rw [row_cons, row_nil, List.append_nil]
      · refine .inr ⟨[], l :: (ms ++ core), ns, by simp, fun _ => rfl, hns, fun p => ?_⟩
        obtain ⟨t, u, -, hu, -, hstop⟩ := hcore (p + Text.size l.text + Text.size (row ms))
        rw [tokensFrom_one hl, Lexeme.tokensFrom_append, hms, List.nil_append]
        refine ⟨_, u, rfl, ?_, rfl, ?_⟩
        · rw [List.getLast?_cons, hu]
          rfl
        · rw [hstop]
          simp [Nat.add_assoc]

theorem exists_source {ls : List Lexeme} (h : ∀ l ∈ ls, l.IsLegal) :
    Silent ls ∨ ∃ ms core ns, ls = ms ++ core ++ ns ∧ Silent ms ∧ Silent ns ∧
      ∀ a c, sourceOf (String.ofList (a ++ (row ls ++ c))) (tokensFrom (Text.size a) ls) =
        String.ofList (row core) := by
  obtain hs | ⟨ms, core, ns, rfl, hms, hns, hcore⟩ := exists_core h
  · exact .inl hs
  · refine .inr ⟨ms, core, ns, rfl, hms, hns, fun a c => ?_⟩
    obtain ⟨t, u, ht, hu, hstart, hstop⟩ := hcore (Text.size a + Text.size (row ms))
    have hslice := Text.slice_append (a ++ row ms) (row core) (row ns ++ c)
    rw [Text.size_append] at hslice
    rw [tokensFrom_silent hms hns]
    simp only [sourceOf, ht, hu, hstart, hstop, String.toList_ofList, row_append,
      List.append_assoc] at hslice ⊢
    rw [hslice]

theorem sourceOf_congr {ls : List Lexeme} (h : ∀ l ∈ ls, l.IsLegal) (a c a' c' : List Char) :
    sourceOf (String.ofList (a ++ (row ls ++ c))) (tokensFrom (Text.size a) ls) =
      sourceOf (String.ofList (a' ++ (row ls ++ c'))) (tokensFrom (Text.size a') ls) := by
  obtain hs | ⟨ms, core, ns, -, -, -, hsource⟩ := exists_source h
  · rw [hs, hs]
    rfl
  · rw [hsource, hsource]

theorem uncut_or_exists_cut {ls : List Lexeme} (h : ∀ l ∈ ls, l.IsLegal) (depth : Int) (p : Nat) :
    Uncut depth (tokensFrom p ls) ∨ ∃ before l after, ls = before ++ l :: after ∧
      Uncut depth (tokensFrom p before) ∧ depthAfterAll depth (tokensFrom p before) = 0 ∧
      ∃ kind name, isSeparator kind = true ∧
        ∀ p, l.tokens p = .ok [⟨kind, name, p, p + Text.size l.text⟩] := by
  induction ls generalizing depth p with
  | nil => exact .inl trivial
  | cons l ls ih =>
    have hlegal : ∀ m ∈ ls, m.IsLegal := fun m hm => h m (List.mem_cons_of_mem l hm)
    obtain hl | ⟨kind, name, hl⟩ := Lexeme.tokens_eq_ok (h l List.mem_cons_self)
    · obtain huncut | ⟨before, m, after, rfl, huncut, hlevel, hm⟩ :=
        ih hlegal depth (p + Text.size l.text)
      · exact .inl (by rwa [tokensFrom_none hl])
      · refine .inr ⟨l :: before, m, after, rfl, ?_, ?_, hm⟩
        · rwa [tokensFrom_none hl]
        · rwa [tokensFrom_none hl]
    · by_cases hcut : depth = 0 ∧ isSeparator kind = true
      · exact .inr ⟨[], l, ls, rfl, trivial, hcut.1, kind, name, hcut.2, hl⟩
      · obtain huncut | ⟨before, m, after, rfl, huncut, hlevel, hm⟩ :=
          ih hlegal (depthAfter depth kind) (p + Text.size l.text)
        · left
          rw [tokensFrom_one hl]
          exact ⟨hcut, huncut⟩
        · refine .inr ⟨l :: before, m, after, rfl, ?_, ?_, hm⟩
          · rw [tokensFrom_one hl]
            exact ⟨hcut, huncut⟩
          · rw [tokensFrom_one hl]
            exact hlevel

/-- A row behind `a`, as the cuts divide it: nothing is cut from it, or it goes on
behind its first separator that cuts. -/
inductive Divided : List Char → List Lexeme → Prop
  | uncut {a : List Char} {ls : List Lexeme} (uncut : Uncut 0 (tokensFrom (Text.size a) ls)) :
      Divided a ls
  | cut {a : List Char} {before after : List Lexeme} {l : Lexeme} {kind : Token.Kind}
      {name : String} (uncut : Uncut 0 (tokensFrom (Text.size a) before))
      (level : depthAfterAll 0 (tokensFrom (Text.size a) before) = 0)
      (separator : isSeparator kind = true)
      (tokens : ∀ p, l.tokens p = .ok [⟨kind, name, p, p + Text.size l.text⟩])
      (more : Divided (a ++ (row before ++ l.text)) after) : Divided a (before ++ l :: after)

theorem divided {ls : List Lexeme} (h : ∀ l ∈ ls, l.IsLegal) (a : List Char) : Divided a ls := by
  -- Fewer lexemes are left behind the first separator that cuts.
  induction hn : ls.length using Nat.strongRecOn generalizing a ls with
  | _ n ih =>
    obtain huncut | ⟨before, l, after, rfl, huncut, hlevel, kind, name, hs, hl⟩ :=
      uncut_or_exists_cut h 0 (Text.size a)
    · exact .uncut huncut
    · have hafter : ∀ m ∈ after, m.IsLegal := fun m hm => h m (by simp [hm])
      have hlength : after.length < n := by
        rw [← hn]
        simp
        omega
      exact .cut huncut hlevel hs hl (ih _ hlength hafter _ rfl)

def membersAt (declared : List String) (a c : List Char) (limit : Nat) (ls : List Lexeme) :
    List Member :=
  (splitMembers limit 0 (tokensFrom (Text.size a) ls)).map fun (part, stop) =>
    ⟨sourceOf (String.ofList (a ++ (row ls ++ c))) part, readMember declared part stop⟩

variable {declared : List String} {a c : List Char} {limit : Nat} {ls ms ns : List Lexeme}

theorem membersAt_silent (h : Silent ls) (h' : Silent ns) :
    membersAt declared a c limit (ls ++ ms ++ ns) =
      membersAt declared (a ++ row ls) (row ns ++ c) limit ms := by
  rw [membersAt, tokensFrom_silent h h', ← Text.size_append]
  simp [membersAt]

theorem membersAt_uncut (h : Uncut 0 (tokensFrom (Text.size a) ls)) :
    membersAt declared a c limit ls =
      [⟨sourceOf (String.ofList (a ++ (row ls ++ c))) (tokensFrom (Text.size a) ls),
        readMember declared (tokensFrom (Text.size a) ls) limit⟩] := by
  rw [membersAt, splitMembers_of_uncut h]
  rfl

theorem membersAt_cut {l : Lexeme} {kind : Token.Kind} {name : String}
    (h : Uncut 0 (tokensFrom (Text.size a) ls))
    (hlevel : depthAfterAll 0 (tokensFrom (Text.size a) ls) = 0) (hs : isSeparator kind = true)
    (hl : ∀ p, l.tokens p = .ok [⟨kind, name, p, p + Text.size l.text⟩]) :
    membersAt declared a c limit (ls ++ l :: ms) =
      ⟨sourceOf (String.ofList (a ++ (row ls ++ (l.text ++ (row ms ++ c)))))
          (tokensFrom (Text.size a) ls),
        readMember declared (tokensFrom (Text.size a) ls) (Text.size a + Text.size (row ls))⟩ ::
        membersAt declared (a ++ (row ls ++ l.text)) c limit ms := by
  have htokens : tokensFrom (Text.size a) (ls ++ l :: ms) = tokensFrom (Text.size a) ls ++
      ⟨kind, name, Text.size a + Text.size (row ls),
        Text.size a + Text.size (row ls) + Text.size l.text⟩ ::
        tokensFrom (Text.size (a ++ (row ls ++ l.text))) ms := by
    simp [Lexeme.tokensFrom_append, tokensFrom, hl, Except.toOption, Nat.add_assoc]
  rw [membersAt, htokens, splitMembers_of_level h hs hlevel]
  simp [membersAt]

theorem membersAt_congr (h : Reads (row ls) ls)
    (hok : ∀ m ∈ membersAt declared a c limit ls, ∃ x, m.expr = .ok x) (a' c' : List Char)
    (limit' : Nat) :
    membersAt declared a' c' limit' ls = membersAt declared a c limit ls := by
  have hdivided := divided h.legal a
  induction hdivided generalizing a' with
  | @uncut a ls huncut =>
    have huncut' := (uncut_congr (kinds_of_alikeFrom
      (moved h (Text.size a) (Text.size a')))).1.2 huncut
    rw [membersAt_uncut huncut] at hok ⊢
    rw [membersAt_uncut huncut']
    obtain ⟨x, hx⟩ := hok _ List.mem_cons_self
    have hx' := readMember_moved h hx (Text.size a') limit'
    simp only at hx
    rw [hx, hx', sourceOf_congr h.legal a' c' a c]
  | @cut a before after l kind name huncut hlevel hs hl _ ih =>
    have hbefore := h.of_prefix
    have hkinds := kinds_of_alikeFrom (moved hbefore (Text.size a) (Text.size a'))
    have huncut' := (uncut_congr hkinds).1.2 huncut
    have hlevel' : depthAfterAll 0 (tokensFrom (Text.size a') before) = 0 :=
      (uncut_congr hkinds).2.trans hlevel
    rw [membersAt_cut huncut hlevel hs hl] at hok ⊢
    rw [membersAt_cut huncut' hlevel' hs hl]
    obtain ⟨x, hx⟩ := hok _ List.mem_cons_self
    have hx' := readMember_moved hbefore hx (Text.size a') (Text.size a' + Text.size (row before))
    have hrest := ih h.of_suffix.rest (fun m hm => hok m (List.mem_cons_of_mem _ hm))
      (a' ++ (row before ++ l.text))
    simp only at hx
    rw [hx, hx', hrest, sourceOf_congr hbefore.legal a' _ a (l.text ++ (row after ++ c))]

end AnswerKey.Answer

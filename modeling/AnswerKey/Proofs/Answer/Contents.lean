import AnswerKey.Proofs.Answer.Isolation
import AnswerKey.Proofs.Answer.Unboxing

/-! A text without what is silent around it, and without the box around it, has
the same members. -/
namespace AnswerKey.Answer

open Lexeme (Reads Silent row tokensFrom tokensFrom_one tokensFrom_silent)

variable {declared : List String} {input : String} {members : List Member}

theorem read_eq_ok : read declared input = .ok members ↔
    ∃ ls inner stop, Reads input.toList ls ∧ tokensFrom 0 ls ≠ [] ∧
      unbox (tokensFrom 0 ls) (Text.size input.toList) = .ok (inner, stop) ∧
      members = (splitMembers stop 0 inner).map fun (part, stop) =>
        ⟨sourceOf input part, readMember declared part stop⟩ := by
  constructor
  · intro h
    simp only [read, bind_eq_ok, mapError_eq_ok] at h
    obtain ⟨ts, hlex, h⟩ := h
    obtain ⟨ls, hls, rfl⟩ := Token.lexFrom_eq_ok.1 hlex
    split at h
    · cases h
    · next hne =>
      simp only [bind_eq_ok, mapError_eq_ok, pure_eq_ok, Prod.exists] at h
      obtain ⟨inner, stop, hu, rfl⟩ := h
      exact ⟨ls, inner, stop, hls, hne, hu, rfl⟩
  · rintro ⟨ls, inner, stop, hls, hne, hu, rfl⟩
    exact read_of_unbox hls hne hu

theorem members_ne_nil (h : read declared input = .ok members) : members ≠ [] := by
  obtain ⟨ls, inner, stop, -, -, -, rfl⟩ := read_eq_ok.1 h
  simpa using splitMembers_ne_nil stop 0 inner

def AllExpressions (members : List Member) : Prop := ∀ m ∈ members, ∃ x, m.expr = .ok x

theorem members_eq_membersAt {a c : List Char} {ls : List Lexeme}
    (h : input.toList = a ++ (row ls ++ c)) (stop : Nat) :
    ((splitMembers stop 0 (tokensFrom (Text.size a) ls)).map fun (part, stop) =>
      (⟨sourceOf input part, readMember declared part stop⟩ : Member)) =
      membersAt declared a c stop ls := by
  rw [membersAt, ← h, String.ofList_toList]

theorem read_of_silent {ms body ns : List Lexeme} (h : Reads input.toList (ms ++ body ++ ns))
    (hms : Silent ms) (hns : Silent ns) (hread : read declared input = .ok members)
    (hall : AllExpressions members) : read declared (String.ofList (row body)) = .ok members := by
  obtain ⟨ls, inner, stop, hls, hne, hu, rfl⟩ := read_eq_ok.1 hread
  obtain rfl := hls.unique h
  have hbody : Reads (row body) body := h.of_prefix.of_suffix
  rw [tokensFrom_silent hms hns] at hne hu
  obtain ⟨before, core, after, rfl, rfl, hunbox⟩ := exists_body hbody hu
  have hcore : Reads (row core) core := hbody.of_suffix.of_prefix
  have hrow : input.toList =
      (row ms ++ row before) ++ (row core ++ (row after ++ row ns)) := by
    simp [h.text]
  rw [Nat.zero_add, ← Text.size_append, members_eq_membersAt hrow] at hall ⊢
  obtain ⟨stop', hu'⟩ :=
    hunbox 0 (Text.size (String.ofList (row (before ++ (core ++ after)))).toList)
  have hne' : tokensFrom 0 (before ++ (core ++ after)) ≠ [] := by
    intro hnil
    exact hne (silent_of_nil hbody.legal hnil _)
  have hreads : Reads (String.ofList (row (before ++ (core ++ after)))).toList
      (before ++ (core ++ after)) := by rwa [String.toList_ofList]
  rw [read_of_unbox hreads hne' hu', Nat.zero_add, members_eq_membersAt (c := row after) (by simp),
    membersAt_congr hcore hall]

theorem read_row {a c : List Char} {stop : Nat} {body : List Lexeme} (hbody : Reads (row body) body)
    (hne : tokensFrom (Text.size a) body ≠ [])
    (hboxless : ∀ t ∈ tokensFrom (Text.size a) body, t.kind ≠ .boxed)
    (hall : AllExpressions (membersAt declared a c stop body)) :
    read declared (String.ofList (row body)) = .ok (membersAt declared a c stop body) := by
  have hne' : tokensFrom 0 body ≠ [] := fun hnil => hne (silent_of_nil hbody.legal hnil _)
  have hu : unbox (tokensFrom 0 body) (Text.size (String.ofList (row body)).toList) =
      .ok (tokensFrom 0 body, Text.size (String.ofList (row body)).toList) := by
    refine unbox_of_unboxed fun t ht hk => ?_
    have hkinds := kinds_of_alikeFrom (moved hbody 0 (Text.size a))
    have hmem : t.kind ∈ (tokensFrom 0 body).map (·.kind) :=
      List.mem_map_of_mem (List.mem_of_mem_head? ht)
    rw [← hkinds] at hmem
    obtain ⟨u, hu, huk⟩ := List.mem_map.1 hmem
    exact hboxless u hu (huk.trans hk)
  have hreads : Reads (String.ofList (row body)).toList body := by rwa [String.toList_ofList]
  have hrow : (String.ofList (row body)).toList = [] ++ (row body ++ []) := by simp
  rw [read_of_unbox hreads hne' hu]
  have hplace := @members_eq_membersAt declared _ _ _ _ hrow
  simp only [Text.size] at hplace
  rw [hplace, membersAt_congr hbody hall]

theorem allRead_of_allExpressions {stop : Nat} {inner : List Token}
    (h : AllExpressions ((splitMembers stop 0 inner).map fun (part, stop) =>
      ⟨sourceOf input part, readMember declared part stop⟩)) : AllRead declared stop inner :=
  fun _ hm => h _ (List.mem_map_of_mem hm)

theorem tokensFrom_boxRow {name : List Char} (hname : name ∈ boxNames) {gap ms : List Lexeme}
    (hgap : Silent gap) (p : Nat) (ns : List Lexeme) : ∃ first brace close,
      tokensFrom p (boxRow name gap ms ++ ns) = first :: brace ::
        (tokensFrom (p + Text.size (row (.command name :: (gap ++ [openBrace])))) ms ++
          close :: tokensFrom (p + Text.size (row (boxRow name gap ms))) ns) ∧
      first.kind = .boxed ∧ brace.kind = .opening .curly ∧ close.kind = .closing .curly := by
  obtain ⟨text, hcommand⟩ := tokens_of_boxName hname
  have hopen (q : Nat) : openBrace.tokens q =
      .ok [⟨.opening .curly, "\x7b", q, q + Text.size openBrace.text⟩] := rfl
  have hclose (q : Nat) : closeBrace.tokens q =
      .ok [⟨.closing .curly, "\x7d", q, q + Text.size closeBrace.text⟩] := rfl
  have hrow : boxRow name gap ms ++ ns =
      .command name :: (gap ++ openBrace :: (ms ++ closeBrace :: ns)) := by
    simp [boxRow]
  rw [hrow, tokensFrom_one hcommand, Lexeme.tokensFrom_append, hgap, tokensFrom_one hopen,
    Lexeme.tokensFrom_append, tokensFrom_one hclose]
  have hinner : p + Text.size (row (.command name :: (gap ++ [openBrace]))) =
      p + Text.size (Lexeme.command name).text + Text.size (row gap) + Text.size openBrace.text := by
    simp [Nat.add_assoc]
  have houter : p + Text.size (row (boxRow name gap ms)) =
      p + Text.size (Lexeme.command name).text + Text.size (row gap) + Text.size openBrace.text +
        Text.size (row ms) + Text.size closeBrace.text := by
    simp [boxRow, Nat.add_assoc]
  rw [hinner, houter]
  refine ⟨_, _, _, rfl, ?_, ?_, ?_⟩ <;> rfl

theorem Unboxed.of_box {limit stop : Nat} {front inside inner after : List Token}
    {first brace close : Token}
    (h : Unboxed (front ++ first :: brace :: (inside ++ close :: after)) limit inner stop)
    (hfirst : first.kind = .boxed) (hclose : close.kind = .closing .curly)
    (hinside : Paired inside) (boxless : ∀ t ∈ inner, t.kind ≠ .boxed) :
    inside = inner ∧ inside ≠ [] := by
  generalize hts : front ++ first :: brace :: (inside ++ close :: after) = ts at h
  cases h with
  | plain unboxed => exact absurd hfirst (boxless first (hts ▸ by simp))
  | @boxed first' brace' close' _ tokens boxed opened closed braces nonempty =>
    rw [tokens] at hts
    cases front with
    | nil =>
      simp only [List.nil_append, List.cons.injEq] at hts
      obtain ⟨-, -, hts⟩ := hts
      -- Both closing braces are the first one that is not paired.
      have hsplit := splitAtClose_of_braces [] braces closed
      rw [← hts, splitAtClose_of_braces _ (hinside 0) hclose] at hsplit
      simp only [Option.some.injEq, Prod.mk.injEq] at hsplit
      obtain ⟨rfl, -⟩ := hsplit
      exact ⟨rfl, nonempty⟩
    | cons t ts =>
      simp only [List.cons_append, List.cons.injEq] at hts
      have hmem : first ∈ brace' :: (inner ++ [close']) := hts.2 ▸ by simp
      simp only [List.mem_cons, List.mem_append, List.not_mem_nil, or_false] at hmem
      obtain rfl | hmem | rfl := hmem
      · simp [hfirst] at opened
      · exact absurd hfirst (boxless first hmem)
      · simp [hfirst] at closed

theorem members_of_boxRow {name : List Char} {pre gap ms ns : List Lexeme}
    (h : Reads input.toList (pre ++ (boxRow name gap ms ++ ns))) (hname : name ∈ boxNames)
    (hgap : Silent gap) (hpaired : ∀ p, Paired (tokensFrom p ms))
    (hread : read declared input = .ok members) (hall : AllExpressions members) :
    ∃ a c stop, members = membersAt declared a c stop ms ∧ tokensFrom (Text.size a) ms ≠ [] ∧
      ∀ t ∈ tokensFrom (Text.size a) ms, t.kind ≠ .boxed := by
  obtain ⟨ls, inner, stop, hls, hne, hu, rfl⟩ := read_eq_ok.1 hread
  obtain rfl := hls.unique h
  have hboxless := (allRead_of_allExpressions hall).not_boxed
  obtain ⟨first, brace, close, htokens, hfirst, -, hclose⟩ :=
    tokensFrom_boxRow hname hgap (0 + Text.size (row pre)) ns
  rw [Lexeme.tokensFrom_append, htokens] at hu
  have hrow : input.toList = row (pre ++ .command name :: (gap ++ [openBrace])) ++
      (row ms ++ row (closeBrace :: ns)) := by
    simp [h.text, boxRow]
  refine ⟨row (pre ++ .command name :: (gap ++ [openBrace])), row (closeBrace :: ns), stop, ?_⟩
  rw [← members_eq_membersAt hrow]
  have hsize : Text.size (row (pre ++ .command name :: (gap ++ [openBrace]))) =
      0 + Text.size (row pre) + Text.size (row (.command name :: (gap ++ [openBrace]))) := by
    simp
  rw [hsize]
  obtain ⟨rfl, nonempty⟩ := (unbox_eq_ok.1 hu).of_box hfirst hclose (hpaired _) hboxless
  exact ⟨rfl, nonempty, hboxless⟩

theorem read_of_boxRow {name : List Char} {pre gap ms body ms' ns : List Lexeme}
    (h : Reads input.toList (pre ++ (boxRow name gap (ms ++ body ++ ms') ++ ns)))
    (hname : name ∈ boxNames) (hgap : Silent gap)
    (hpaired : ∀ p, Paired (tokensFrom p (ms ++ body ++ ms'))) (hms : Silent ms)
    (hms' : Silent ms') (hread : read declared input = .ok members)
    (hall : AllExpressions members) : read declared (String.ofList (row body)) = .ok members := by
  obtain ⟨a, c, stop, rfl, hne, hboxless⟩ :=
    members_of_boxRow h hname hgap hpaired hread hall
  have hinner := h.of_suffix.of_prefix.rest.of_suffix.rest.of_prefix
  have hbody : Reads (row body) body := hinner.of_prefix.of_suffix
  rw [tokensFrom_silent hms hms', ← Text.size_append] at hne hboxless
  rw [membersAt_silent hms hms'] at hall ⊢
  exact read_row hbody hne hboxless hall

end AnswerKey.Answer

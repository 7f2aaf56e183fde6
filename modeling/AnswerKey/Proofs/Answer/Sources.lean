import AnswerKey.Proofs.Answer.Contents

/-! The sources of the members of an answer: they stand one after the other in
it, and each that is read is read again from its source alone. -/
namespace AnswerKey.Answer

open Lexeme (Reads Silent row tokensFrom tokensFrom_silent)

/-- The texts stand in a text one after the other, without a common part. -/
inductive InOrder : List (List Char) → List Char → Prop
  | nil (cs : List Char) : InOrder [] cs
  | cons (gap part : List Char) {parts : List (List Char)} {rest : List Char}
      (more : InOrder parts rest) : InOrder (part :: parts) (gap ++ (part ++ rest))

namespace InOrder

variable {parts parts' : List (List Char)} {cs ds : List Char}

theorem append_left (h : InOrder parts cs) (ds : List Char) : InOrder parts (ds ++ cs) := by
  cases h with
  | nil => exact .nil _
  | cons gap part more =>
    rw [← List.append_assoc]
    exact .cons (ds ++ gap) part more

theorem append (h : InOrder parts cs) (h' : InOrder parts' ds) :
    InOrder (parts ++ parts') (cs ++ ds) := by
  induction h with
  | nil cs => exact h'.append_left cs
  | cons gap part _ ih =>
    rw [List.append_assoc, List.append_assoc]
    exact .cons gap part ih

theorem append_right (h : InOrder parts cs) (ds : List Char) : InOrder parts (cs ++ ds) := by
  simpa using h.append (.nil ds)

end InOrder

variable {declared : List String} {a c : List Char} {limit : Nat} {ls : List Lexeme}

theorem inOrder_sourceOf (h : ∀ l ∈ ls, l.IsLegal) (a c : List Char) :
    InOrder [(sourceOf (String.ofList (a ++ (row ls ++ c))) (tokensFrom (Text.size a) ls)).toList]
      (row ls) := by
  obtain hs | ⟨ms, core, ns, rfl, -, -, hsource⟩ := exists_source h
  · rw [hs]
    exact .cons [] [] (.nil (row ls))
  · rw [hsource, String.toList_ofList, Lexeme.row_append, Lexeme.row_append, List.append_assoc]
    exact .cons (row ms) (row core) (.nil (row ns))

theorem inOrder_membersAt (h : ∀ l ∈ ls, l.IsLegal) :
    InOrder ((membersAt declared a c limit ls).map (·.source.toList)) (row ls) := by
  have hdivided := divided h a
  induction hdivided with
  | @uncut a ls huncut =>
    rw [membersAt_uncut huncut]
    exact inOrder_sourceOf h a c
  | @cut a before after l kind name huncut hlevel hs hl _ ih =>
    have hbefore : ∀ m ∈ before, m.IsLegal := fun m hm => h m (by simp [hm])
    have hafter : ∀ m ∈ after, m.IsLegal := fun m hm => h m (by simp [hm])
    rw [membersAt_cut huncut hlevel hs hl, Lexeme.row_append, Lexeme.row_cons]
    exact (inOrder_sourceOf hbefore a _).append ((ih hafter).append_left l.text)

theorem read_sourceOf {x : Expr} (h : Reads (row ls) ls)
    (huncut : Uncut 0 (tokensFrom (Text.size a) ls))
    (hx : readMember declared (tokensFrom (Text.size a) ls) limit = .ok x) :
    let source := sourceOf (String.ofList (a ++ (row ls ++ c))) (tokensFrom (Text.size a) ls)
    read declared source = .ok [⟨source, .ok x⟩] := by
  have hmembers : membersAt declared a c limit ls = _ := membersAt_uncut huncut
  obtain hs | ⟨ms, core, ns, rfl, hms, hns, hsource⟩ := exists_source h.legal
  · exact absurd (hs _) (readMember_eq_ok.1 hx).1
  · rw [hx, hsource] at hmembers
    rw [membersAt_silent hms hns] at hmembers
    have hcore : Reads (row core) core := h.of_prefix.of_suffix
    have hne := (readMember_eq_ok.1 hx).1
    have hboxless := not_boxed_of_readMember hx
    rw [tokensFrom_silent hms hns, ← Text.size_append] at hne hboxless
    simp only [hsource]
    rw [← hmembers]
    refine read_row hcore hne hboxless ?_
    rw [hmembers]
    simp [AllExpressions]

theorem read_source_of_membersAt {m : Member} {x : Expr} (h : Reads (row ls) ls)
    (hm : m ∈ membersAt declared a c limit ls) (hx : m.expr = .ok x) :
    read declared m.source = .ok [m] := by
  have hdivided := divided h.legal a
  induction hdivided with
  | @uncut a ls huncut =>
    rw [membersAt_uncut huncut, List.mem_singleton] at hm
    subst hm
    simp only at hx
    rw [hx]
    exact read_sourceOf h huncut hx
  | @cut a before after l kind name huncut hlevel hs hl _ ih =>
    rw [membersAt_cut huncut hlevel hs hl] at hm
    rcases List.mem_cons.1 hm with rfl | hm
    · simp only at hx
      rw [hx]
      exact read_sourceOf h.of_prefix huncut hx
    · exact ih h.of_suffix.rest hm

/-- The sources of the members stand in the answer in their order, and every
member that is an expression is the only member that is read from its source. -/
theorem read_source {input : String} {members : List Member}
    (h : read declared input = .ok members) :
    (∀ m ∈ members, ∀ x, m.expr = .ok x → read declared m.source = .ok [m]) ∧
      InOrder (members.map (·.source.toList)) input.toList := by
  obtain ⟨ls, inner, stop, hls, -, hu, rfl⟩ := read_eq_ok.1 h
  obtain ⟨before, body, after, rfl, rfl, -⟩ := exists_body hls hu
  have hbody : Reads (row body) body := hls.of_suffix.of_prefix
  have hrow : input.toList = row before ++ (row body ++ row after) := by
    simpa using hls.text
  rw [Nat.zero_add, members_eq_membersAt hrow]
  constructor
  · intro m hm x hx
    exact read_source_of_membersAt hbody hm hx
  · rw [hrow]
    exact ((inOrder_membersAt hbody.legal).append_right (row after)).append_left (row before)

theorem read_source_boxed_list : ∃ members,
    read ["x"] "\\boxed\x7b\\frac\x7bx\x7d\x7b2\x7d; |x|,, 3\x7d" = .ok members ∧
      members.map (·.source) = ["\\frac\x7bx\x7d\x7b2\x7d", "|x|", "", "3"] ∧
      (∀ m ∈ members, ∀ x, m.expr = .ok x → read ["x"] m.source = .ok [m]) ∧
      InOrder (members.map (·.source.toList))
        "\\boxed\x7b\\frac\x7bx\x7d\x7b2\x7d; |x|,, 3\x7d".toList := by
  have hsources :
      (read ["x"] "\\boxed\x7b\\frac\x7bx\x7d\x7b2\x7d; |x|,, 3\x7d").toOption.map
        (fun members => members.map (·.source)) =
          some ["\\frac\x7bx\x7d\x7b2\x7d", "|x|", "", "3"] := by
    decide +kernel
  obtain ⟨members, hmembers, hsources⟩ := Option.map_eq_some_iff.1 hsources
  have hread := toOption_eq_some.1 hmembers
  exact ⟨members, hread, hsources, read_source hread⟩

end AnswerKey.Answer

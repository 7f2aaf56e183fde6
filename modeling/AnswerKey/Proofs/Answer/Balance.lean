import AnswerKey.Proofs.Answer.Isolation

/-! Texts with balanced braces, and the first box that has one for its contents. -/
namespace AnswerKey.Answer

open Lexeme (isBrace)

/-- The braces come in pairs, but for those behind a backslash, which makes the
next character inert. -/
inductive Balanced : List Char → Prop
  | nil : Balanced []
  | plain {c : Char} {cs : List Char} (slash : c ≠ '\\') (brace : isBrace c = false)
      (rest : Balanced cs) : Balanced (c :: cs)
  | inert {c : Char} {cs : List Char} (rest : Balanced cs) : Balanced ('\\' :: c :: cs)
  | braced {inside cs : List Char} (within : Balanced inside) (rest : Balanced cs) :
      Balanced ('{' :: (inside ++ '}' :: cs))

/-- A box stands at the start of the text: its command, blanks, and braces around
balanced contents. -/
def BoxAt (cs contents : List Char) : Prop :=
  ∃ word ∈ boxCommands, ∃ gap rest, cs = word ++ (gap ++ '{' :: (contents ++ '}' :: rest)) ∧
    (∀ c ∈ gap, Text.isBlank c = true) ∧ Balanced contents

/-- No box stands in front of the places in a text that are as far as `before`. -/
def NoneBefore (cs before : List Char) : Prop :=
  ∀ before' after', cs = before' ++ after' → before'.length < before.length →
    ∀ contents, ¬BoxAt after' contents

/-- The text that is isolated: the contents of the first box, or all of a text
without boxes. -/
inductive Isolated (cs : List Char) : List Char → Prop
  | boxed {before after contents : List Char} (place : cs = before ++ after)
      (box : BoxAt after contents) (first : NoneBefore cs before) : Isolated cs contents
  | whole (none : ∀ before after, cs = before ++ after → ∀ contents, ¬BoxAt after contents) :
      Isolated cs cs

variable {cs contents rest : List Char} {c : Char} {depth : Nat}

/-! Balanced texts and the search for the closing brace. -/

theorem untilClose_cons (slash : c ≠ '\\') (brace : isBrace c = false) (depth : Nat)
    (rest : List Char) : untilClose depth (c :: rest) = (untilClose depth rest).map (c :: ·) :=
  @untilClose_plain [c] (by simpa using ⟨slash, brace⟩) depth rest

theorem Balanced.untilClose_append (h : Balanced cs) (depth : Nat) (rest : List Char) :
    untilClose depth (cs ++ rest) = (untilClose depth rest).map (cs ++ ·) := by
  induction h generalizing depth rest with
  | nil => simp
  | plain slash brace _ ih =>
    rw [List.cons_append, untilClose_cons slash brace, ih, Option.map_map]
    rfl
  | inert _ ih =>
    rw [List.cons_append, List.cons_append, untilClose_backslash, ih, Option.map_map]
    rfl
  | @braced inside cs _ _ within ih =>
    have regroup : '{' :: (inside ++ '}' :: cs) ++ rest =
        '{' :: (inside ++ '}' :: (cs ++ rest)) := by simp
    rw [regroup, untilClose_opening, within, untilClose_closing, ih]
    simp [Function.comp_def]

/-- Balanced texts one after the other, with `depth` closing braces between them. -/
def Closes : Nat → List Char → Prop
  | 0, cs => Balanced cs
  | depth + 1, cs => ∃ first others, cs = first ++ '}' :: others ∧ Balanced first ∧
      Closes depth others

theorem Closes.prepend (part : List Char) (hpart : ∀ cs, Balanced cs → Balanced (part ++ cs))
    (h : Closes depth cs) : Closes depth (part ++ cs) := by
  cases depth with
  | zero => exact hpart cs h
  | succ depth =>
    obtain ⟨first, others, rfl, hfirst, hothers⟩ := h
    exact ⟨part ++ first, others, by simp, hpart first hfirst, hothers⟩

theorem plain_of_other {c : Char} {rest : List Char} (bare : c = '\\' → rest = [] → False)
    (escaped : ∀ d ds, c = '\\' → rest = d :: ds → False) (opening : c = '{' → False)
    (closing : c = '}' → False) : c ≠ '\\' ∧ isBrace c = false := by
  refine ⟨?_, by simpa [isBrace] using ⟨opening, closing⟩⟩
  rintro rfl
  cases rest with
  | nil => exact bare rfl rfl
  | cons d ds => exact escaped d ds rfl rfl

theorem closes_of_untilClose (h : untilClose depth cs = some contents) :
    Closes depth contents ∧ ∃ rest, cs = contents ++ '}' :: rest := by
  fun_induction untilClose depth cs generalizing contents with
  | case1 | case2 => cases h
  | case3 depth c rest ih =>
    obtain ⟨contents, hc, rfl⟩ := Option.map_eq_some_iff.1 h
    obtain ⟨closes, rest, rfl⟩ := ih hc
    exact ⟨closes.prepend ['\\', c] fun _ => .inert, rest, rfl⟩
  | case4 depth rest ih =>
    obtain ⟨contents, hc, rfl⟩ := Option.map_eq_some_iff.1 h
    obtain ⟨⟨first, others, rfl, hfirst, hothers⟩, rest, rfl⟩ := ih hc
    have braced := hothers.prepend ('{' :: (first ++ ['}'])) fun cs hcs => by
      simpa using Balanced.braced hfirst hcs
    exact ⟨by simpa using braced, rest, by simp⟩
  | case5 rest =>
    obtain rfl : [] = contents := Option.some.inj h
    exact ⟨.nil, rest, rfl⟩
  | case6 rest depth ih =>
    obtain ⟨contents, hc, rfl⟩ := Option.map_eq_some_iff.1 h
    obtain ⟨closes, rest, rfl⟩ := ih hc
    exact ⟨⟨[], contents, rfl, .nil, closes⟩, rest, rfl⟩
  | case7 depth c rest bare escaped opening closing ih =>
    obtain ⟨slash, brace⟩ := plain_of_other bare escaped opening closing
    obtain ⟨contents, hc, rfl⟩ := Option.map_eq_some_iff.1 h
    obtain ⟨closes, rest, rfl⟩ := ih hc
    exact ⟨closes.prepend [c] fun _ => .plain slash brace, rest, rfl⟩

theorem untilClose_eq_some : untilClose 0 cs = some contents ↔
    Balanced contents ∧ ∃ rest, cs = contents ++ '}' :: rest := by
  refine ⟨closes_of_untilClose, ?_⟩
  rintro ⟨balanced, rest, rfl⟩
  rw [balanced.untilClose_append]
  simp [untilClose]

/-! Boxes and the search for the first one. -/

theorem boxHere?_iff : boxHere? cs = some contents ↔ BoxAt cs contents := by
  constructor
  · intro h
    obtain ⟨word, hword, tail, inner, rfl, htail, hc⟩ := boxHere?_eq_some h
    obtain ⟨balanced, rest, rfl⟩ := untilClose_eq_some.1 hc
    refine ⟨word, hword, tail.takeWhile Text.isBlank, rest, ?_, all_takeWhile _ tail, balanced⟩
    rw [← htail, List.takeWhile_append_dropWhile]
  · rintro ⟨word, hword, gap, rest, rfl, blank, balanced⟩
    have contents_eq :
        contentsAfter? (gap ++ '{' :: (contents ++ '}' :: rest)) = some contents := by
      have opening : ∀ c ∈ ('{' :: (contents ++ '}' :: rest)).head?, Text.isBlank c = false := by
        rintro _ ⟨⟩
        decide
      rw [contentsAfter?, (takeWhile_of_all blank opening).2]
      exact untilClose_eq_some.2 ⟨balanced, rest, rfl⟩
    generalize gap ++ '{' :: (contents ++ '}' :: rest) = tail at contents_eq
    have here : word.isPrefixOf (word ++ tail) = true :=
      List.isPrefixOf_iff_prefix.2 (List.prefix_append word tail)
    simp only [boxCommands, List.mem_cons, List.not_mem_nil, or_false] at hword
    rw [boxHere?, boxCommands, List.findSome?_cons]
    obtain rfl | rfl := hword
    · rw [if_pos here, List.drop_left, contents_eq]
    · have other : "\\boxed".toList.isPrefixOf ("\\fbox".toList ++ tail) = false := rfl
      rw [other, if_neg Bool.false_ne_true, List.findSome?_cons, if_pos here, List.drop_left,
        contents_eq]

theorem boxHere?_eq_none : boxHere? cs = none ↔ ∀ contents, ¬BoxAt cs contents := by
  simp only [← boxHere?_iff, Option.eq_none_iff_forall_ne_some, ne_eq]

theorem noneBefore_cons {before : List Char} (hbox : boxHere? (c :: cs) = none)
    (h : NoneBefore cs before) : NoneBefore (c :: cs) (c :: before) := by
  rintro (_ | ⟨d, before'⟩) after' heq hlt
  · obtain rfl : c :: cs = after' := heq
    exact boxHere?_eq_none.1 hbox
  · exact h before' after' (List.cons.inj heq).2 (Nat.lt_of_succ_lt_succ hlt)

theorem exists_of_firstBox? (h : firstBox? cs = some contents) :
    ∃ before after, cs = before ++ after ∧ BoxAt after contents ∧ NoneBefore cs before := by
  induction cs with
  | nil => cases h
  | cons c cs ih =>
    rw [firstBox?] at h
    cases hbox : boxHere? (c :: cs) with
    | some m =>
      obtain rfl : m = contents := by simpa [hbox] using h
      exact ⟨[], c :: cs, rfl, boxHere?_iff.1 hbox, fun _ _ _ hlt => absurd hlt (Nat.not_lt_zero _)⟩
    | none =>
      obtain ⟨before, after, rfl, box, first⟩ := ih (by simpa [hbox] using h)
      exact ⟨c :: before, after, rfl, box, noneBefore_cons hbox first⟩

theorem noneBefore_of_firstBox? (h : firstBox? cs = none) : NoneBefore cs cs := by
  induction cs with
  | nil => exact fun _ _ _ hlt => absurd hlt (Nat.not_lt_zero _)
  | cons c cs ih =>
    rw [firstBox?] at h
    cases hbox : boxHere? (c :: cs) with
    | some m => simp [hbox] at h
    | none => exact noneBefore_cons hbox (ih (by simpa [hbox] using h))

theorem firstBox?_append {before after : List Char} (h : NoneBefore (before ++ after) before) :
    firstBox? (before ++ after) = firstBox? after := by
  induction before with
  | nil => rfl
  | cons c before ih =>
    have here : boxHere? (c :: (before ++ after)) = none :=
      boxHere?_eq_none.2 (h [] _ rfl (Nat.zero_lt_succ _))
    have rest : NoneBefore (before ++ after) before := by
      rintro before' after' heq hlt
      exact h (c :: before') after' (by rw [List.cons_append, heq, List.cons_append])
        (Nat.succ_lt_succ hlt)
    rw [List.cons_append, firstBox?, here]
    exact ih rest

theorem firstBox?_of_box {before after : List Char} (box : BoxAt after contents)
    (first : NoneBefore (before ++ after) before) :
    firstBox? (before ++ after) = some contents := by
  rw [firstBox?_append first]
  cases after with
  | nil => cases boxHere?_iff.2 box
  | cons c after => simp [firstBox?, boxHere?_iff.2 box]

/-- What is isolated is what the search for the first box finds. -/
theorem isolated_iff : Isolated cs contents ↔ (firstBox? cs).getD cs = contents := by
  constructor
  · rintro (⟨rfl, box, first⟩ | none)
    · rw [firstBox?_of_box box first, Option.getD_some]
    · have absent := @firstBox?_append cs [] fun before' after' heq _ => none before' after' (by
        rwa [List.append_nil] at heq)
      rw [List.append_nil] at absent
      rw [absent]
      rfl
  · rintro rfl
    cases h : firstBox? cs with
    | some contents =>
      obtain ⟨before, after, rfl, box, first⟩ := exists_of_firstBox? h
      exact .boxed rfl box first
    | none =>
      refine .whole fun before after heq contents box => ?_
      have shorter : before.length < cs.length := by
        cases after with
        | nil => cases boxHere?_iff.2 box
        | cons c after => simp [heq]
      exact noneBefore_of_firstBox? h before after heq shorter contents box

end AnswerKey.Answer

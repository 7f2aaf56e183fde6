import AnswerKey.Proofs.Answer.Contents

/-! A box command whose backslash belongs to the backslash before it. For the
lexemes the braces behind it are braces of a member, whose text is longer than
what is between them. -/
namespace AnswerKey

namespace Text

theorem size_le_of_sublist {a b : List Char} (h : a.Sublist b) : size a ≤ size b := by
  induction h with
  | slnil => exact Nat.le_refl _
  | cons c _ ih => exact Nat.le_trans ih (Nat.le_add_left _ _)
  | cons_cons c _ ih => exact Nat.add_le_add_left ih _

theorem dropBytes_sublist (n : Nat) (cs : List Char) : (dropBytes n cs).Sublist cs := by
  induction cs generalizing n with
  | nil => cases n <;> exact List.Sublist.refl _
  | cons c cs ih =>
    cases n with
    | zero => exact List.Sublist.refl _
    | succ n => exact (ih _).cons c

theorem takeBytes_sublist (n : Nat) (cs : List Char) : (takeBytes n cs).Sublist cs := by
  induction cs generalizing n with
  | nil => cases n <;> exact List.Sublist.refl _
  | cons c cs ih =>
    cases n with
    | zero => exact List.nil_sublist _
    | succ n => exact (ih _).cons_cons c

theorem size_slice_le (start stop : Nat) (cs : List Char) : size (slice start stop cs) ≤ size cs :=
  size_le_of_sublist ((takeBytes_sublist _ _).trans (dropBytes_sublist _ _))

theorem size_trim_le (cs : List Char) : size (trim cs) ≤ size cs := by
  refine size_le_of_sublist ?_
  have hdrop := List.dropWhile_sublist (l := (cs.dropWhile isBlank).reverse) isBlank
  have hreverse := List.reverse_sublist.2 hdrop
  rw [List.reverse_reverse] at hreverse
  exact hreverse.trans (List.dropWhile_sublist _)

theorem size_slice {cs x z x' z' : List Char} (h : cs = x ++ z) (h' : cs = x' ++ z')
    (hle : size x ≤ size x') : size (slice (size x) (size x') cs) = size x' - size x := by
  have hx : x <+: cs := ⟨z, h.symm⟩
  have hx' : x' <+: cs := ⟨z', h'.symm⟩
  rcases List.prefix_or_prefix_of_prefix hx hx' with ⟨w, rfl⟩ | ⟨w, rfl⟩
  · rw [h', List.append_assoc, size_append, slice_append]
    omega
  · have hw : size w = 0 := by
      rw [size_append] at hle
      omega
    rw [size_append, hw]
    simp [slice, size]

end Text

namespace Answer

open Lexeme (Reads Silent row tokensFrom tokensFrom_one)

variable {limit : Nat} {depth : Int} {ts us : List Token} {t : Token}

theorem bracesAfter_append_eq (depth : Nat) (ts us : List Token) :
    bracesAfter depth (ts ++ us) = (bracesAfter depth ts).bind (bracesAfter · us) := by
  cases h : bracesAfter depth ts with
  | some depth' => exact bracesAfter_append h
  | none =>
    induction ts generalizing depth with
    | nil => cases h
    | cons t ts ih =>
      by_cases ho : t.kind = .opening .curly
      · rw [bracesAfter_opening ho] at h
        rw [List.cons_append, bracesAfter_opening ho, ih _ h]
      by_cases hc : t.kind = .closing .curly
      · cases depth with
        | zero => simp [bracesAfter, hc]
        | succ depth =>
          rw [bracesAfter_closing hc] at h
          rw [List.cons_append, bracesAfter_closing hc, ih _ h]
      rw [bracesAfter_other ho hc] at h
      rw [List.cons_append, bracesAfter_other ho hc, ih _ h]

theorem bracesAfter_add {depth depth' : Nat} (h : bracesAfter depth ts = some depth')
    (further : Nat) : bracesAfter (depth + further) ts = some (depth' + further) := by
  induction ts generalizing depth with
  | nil =>
    obtain rfl : depth = depth' := by simpa [bracesAfter] using h
    rfl
  | cons t ts ih =>
    by_cases ho : t.kind = .opening .curly
    · rw [bracesAfter_opening ho] at h ⊢
      rw [Nat.add_right_comm]
      exact ih h
    by_cases hc : t.kind = .closing .curly
    · cases depth with
      | zero => simp [bracesAfter, hc] at h
      | succ depth =>
        rw [bracesAfter_closing hc] at h
        rw [Nat.add_right_comm, bracesAfter_closing hc]
        exact ih h
    rw [bracesAfter_other ho hc] at h ⊢
    exact ih h

theorem not_closed_within {inside : List Token} (further : List Token)
    (h : Paired (inside ++ further))
    (depth : Nat) : bracesAfter (depth + 1) inside ≠ some 0 := by
  intro hzero
  have hall := h 0
  rw [bracesAfter_append_eq] at hall
  obtain ⟨k, hk, -⟩ := Option.bind_eq_some_iff.1 hall
  have hadd := bracesAfter_add hk (depth + 1)
  rw [Nat.zero_add, hzero] at hadd
  simp at hadd

theorem prefix_of_splitMembers {part : List Token} {stop : Nat} {others : List (List Token × Nat)}
    (h : splitMembers limit depth ts = (part, stop) :: others) : part <+: ts := by
  induction ts generalizing depth part stop others with
  | nil =>
    cases h
    exact List.prefix_refl _
  | cons u ts ih =>
    by_cases hcut : depth = 0 ∧ isSeparator u.kind = true
    · simp only [splitMembers, if_pos hcut, List.cons.injEq, Prod.mk.injEq] at h
      rw [← h.1.1]
      exact List.nil_prefix
    · obtain ⟨part', stop', others', hrest, hcons⟩ := splitMembers_cons limit ts hcut
      rw [hcons] at h
      obtain ⟨⟨rfl, rfl⟩, rfl⟩ : (u :: part' = part ∧ stop' = stop) ∧ others' = others := by
        simpa using h
      exact (List.prefix_cons_inj u).2 (ih hrest)

theorem sublist_of_mem_splitMembers {m : List Token × Nat}
    (h : m ∈ splitMembers limit depth ts) : m.1.Sublist ts := by
  induction ts generalizing depth m with
  | nil =>
    obtain rfl : m = ([], limit) := by simpa [splitMembers] using h
    exact List.Sublist.refl _
  | cons u ts ih =>
    by_cases hcut : depth = 0 ∧ isSeparator u.kind = true
    · simp only [splitMembers, if_pos hcut] at h
      rcases List.mem_cons.1 h with rfl | h
      · exact List.nil_sublist _
      · exact (ih h).cons u
    · obtain ⟨part, stop, others, hrest, hcons⟩ := splitMembers_cons limit ts hcut
      rw [hcons] at h
      rcases List.mem_cons.1 h with rfl | h
      · exact (prefix_of_splitMembers hrest).sublist.cons_cons u
      · exact (ih (hrest ▸ List.mem_cons_of_mem _ h)).cons u

/-- Braces with paired tokens between them are not cut apart, where the braces of
each member are closed in it. -/
theorem exists_member_around {before inside after : List Token} {o c : Token}
    (ho : o.kind = .opening .curly) (hinside : Paired inside)
    (h : ∀ m ∈ splitMembers limit depth (before ++ o :: (inside ++ c :: after)),
      ∃ e, bracesAfter e m.1 = some 0) :
    ∃ m ∈ splitMembers limit depth (before ++ o :: (inside ++ c :: after)), ∃ ts us,
      m.1 = ts ++ o :: (inside ++ c :: us) := by
  induction before generalizing depth with
  | nil =>
    have hcut : ¬(depth = 0 ∧ isSeparator o.kind = true) := by simp [ho, isSeparator]
    obtain ⟨part, stop, others, hrest, hcons⟩ :=
      splitMembers_cons limit (inside ++ c :: after) hcut
    rw [List.nil_append, hcons] at h ⊢
    refine ⟨_, List.mem_cons_self, [], ?_⟩
    obtain ⟨e, he⟩ := h _ List.mem_cons_self
    rw [bracesAfter_opening ho] at he
    -- The member closes the brace, so it does not end among the tokens inside.
    obtain ⟨further, hprefix⟩ := prefix_of_splitMembers hrest
    obtain ⟨within, hwithin, -⟩ | ⟨beyond, rfl, hbeyond⟩ := List.append_eq_append_iff.1 hprefix
    · exact absurd he (not_closed_within _ (hwithin ▸ hinside) e)
    · cases beyond with
      | nil => exact absurd he (not_closed_within [] (by simpa using hinside) e)
      | cons u us =>
        obtain ⟨rfl, -⟩ := List.cons.inj hbeyond
        exact ⟨us, rfl⟩
  | cons t before ih =>
    by_cases hcut : depth = 0 ∧ isSeparator t.kind = true
    · simp only [List.cons_append, splitMembers, if_pos hcut] at h ⊢
      obtain ⟨m, hm, hparts⟩ := ih fun m hm => h m (List.mem_cons_of_mem _ hm)
      exact ⟨m, List.mem_cons_of_mem _ hm, hparts⟩
    · obtain ⟨part, stop, others, hrest, hcons⟩ :=
        splitMembers_cons limit (before ++ o :: (inside ++ c :: after)) hcut
      rw [List.cons_append, hcons] at h ⊢
      have hbraces : ∀ m ∈ (part, stop) :: others, ∃ e, bracesAfter e m.1 = some 0 := by
        intro m hm
        rcases List.mem_cons.1 hm with rfl | hm
        · obtain ⟨e, he⟩ := h _ List.mem_cons_self
          have hsplit := bracesAfter_append_eq e [t] part
          rw [List.singleton_append, he] at hsplit
          obtain ⟨e', -, hpart⟩ := Option.bind_eq_some_iff.1 hsplit.symm
          exact ⟨e', hpart⟩
        · exact h m (List.mem_cons_of_mem _ hm)
      obtain ⟨m, hm, ts, us, hparts⟩ := ih (hrest ▸ hbraces)
      rw [hrest] at hm
      rcases List.mem_cons.1 hm with rfl | hm
      · have hparts : part = ts ++ o :: (inside ++ c :: us) := hparts
        exact ⟨_, List.mem_cons_self, t :: ts, us, by rw [hparts, List.cons_append]⟩
      · exact ⟨m, List.mem_cons_of_mem _ hm, ts, us, hparts⟩

/-! The text from one token of a row to another. -/

theorem ordered_tokensFrom {ls : List Lexeme} (h : ∀ l ∈ ls, l.IsLegal) (p : Nat) :
    (tokensFrom p ls).Pairwise (fun t u => t.stop ≤ u.start) ∧
      ∀ t ∈ tokensFrom p ls, p ≤ t.start ∧ t.start ≤ t.stop := by
  induction ls generalizing p with
  | nil => exact ⟨.nil, by simp [tokensFrom]⟩
  | cons l ls ih =>
    obtain ⟨hpair, hbounds⟩ := ih (fun m hm => h m (List.mem_cons_of_mem l hm))
      (p + Text.size l.text)
    have hbounds' : ∀ t ∈ tokensFrom (p + Text.size l.text) ls, p ≤ t.start ∧ t.start ≤ t.stop :=
      fun t ht => ⟨Nat.le_trans (Nat.le_add_right _ _) (hbounds t ht).1, (hbounds t ht).2⟩
    obtain hl | ⟨kind, name, hl⟩ := Lexeme.tokens_eq_ok (h l List.mem_cons_self)
    · simp only [tokensFrom, hl, Except.toOption, Option.getD_some, List.nil_append]
      exact ⟨hpair, hbounds'⟩
    · rw [tokensFrom_one hl, List.pairwise_cons, List.forall_mem_cons]
      exact ⟨⟨fun t ht => (hbounds t ht).1, hpair⟩,
        ⟨Nat.le_refl p, Nat.le_add_right _ _⟩, hbounds'⟩

theorem start_le_of_ordered {t : Token} {ts : List Token}
    (h : (t :: ts).Pairwise fun t u => t.stop ≤ u.start) (hspan : t.start ≤ t.stop) :
    ∀ u ∈ t :: ts, t.start ≤ u.start := by
  intro u hu
  obtain rfl | hu := List.mem_cons.1 hu
  · exact Nat.le_refl _
  · exact Nat.le_trans hspan ((List.pairwise_cons.1 h).1 u hu)

theorem stop_le_of_ordered {t : Token} {ts : List Token}
    (h : (ts ++ [t]).Pairwise fun t u => t.stop ≤ u.start) (hspan : t.start ≤ t.stop) :
    ∀ u ∈ ts ++ [t], u.stop ≤ t.stop := by
  intro u hu
  obtain hu | hu := List.mem_append.1 hu
  · exact Nat.le_trans ((List.pairwise_append.1 h).2.2 u hu t (List.mem_singleton_self t)) hspan
  · obtain rfl := List.mem_singleton.1 hu
    exact Nat.le_refl _

theorem size_slice_of_tokens {cs : List Char} {ls : List Lexeme} {t u : Token} (h : Reads cs ls)
    (ht : t ∈ tokensFrom 0 ls) (hu : u ∈ tokensFrom 0 ls) (hle : t.start ≤ u.stop) :
    Text.size (Text.slice t.start u.stop cs) = u.stop - t.start := by
  have hplace {x : Token} (hx : x ∈ tokensFrom 0 ls) : ∃ before l after,
      ls = before ++ l :: after ∧ x.start = Text.size (row before) ∧
        x.stop = Text.size (row (before ++ [l])) := by
    obtain ⟨before, after, hxs⟩ := List.append_of_mem hx
    obtain ⟨ms, l, ns, hls, -, -, hstart, hstop, -⟩ := exists_lexeme h.legal hxs
    exact ⟨ms, l, ns, hls, by simpa using hstart, by simp [hstop, hstart]⟩
  obtain ⟨before, l, after, hls, hstart, -⟩ := hplace ht
  obtain ⟨before', l', after', hls', -, hstop⟩ := hplace hu
  have hrow : cs = row before ++ row (l :: after) := by rw [h.text, hls]; simp
  have hrow' : cs = row (before' ++ [l']) ++ row after' := by rw [h.text, hls']; simp
  rw [hstart, hstop] at hle ⊢
  exact Text.size_slice hrow hrow' hle

theorem size_sourceOf {input : String} {ls : List Lexeme} {part : List Token} {t u : Token}
    (h : Reads input.toList ls) (hpart : part.Sublist (tokensFrom 0 ls)) (ht : t ∈ part)
    (hu : u ∈ part) : u.stop - t.start ≤ Text.size (sourceOf input part).toList := by
  obtain ⟨hpair, hbounds⟩ := ordered_tokensFrom h.legal 0
  have hpair := hpair.sublist hpart
  have hspan : ∀ x ∈ part, x.start ≤ x.stop := fun x hx => (hbounds x (hpart.subset hx)).2
  obtain ⟨first, rest, rfl⟩ : ∃ first rest, part = first :: rest :=
    List.exists_cons_of_ne_nil (List.ne_nil_of_mem ht)
  obtain ⟨init, last, hlast⟩ : ∃ init last, first :: rest = init ++ [last] :=
    ⟨_, _, (List.dropLast_concat_getLast (List.cons_ne_nil first rest)).symm⟩
  have hmem : last ∈ first :: rest := by simp [hlast]
  have hstart := start_le_of_ordered hpair (hspan first List.mem_cons_self)
  have hstop : u.stop ≤ last.stop :=
    stop_le_of_ordered (hlast ▸ hpair) (hspan last hmem) u (hlast ▸ hu)
  have hle : first.start ≤ last.stop := Nat.le_trans (hstart last hmem) (hspan last hmem)
  have hslice : (sourceOf input (first :: rest)).toList =
      Text.slice first.start last.stop input.toList := by
    have hgetLast : (first :: rest).getLast? = some last := by simp [hlast]
    simp [sourceOf, hgetLast]
  rw [hslice, size_slice_of_tokens h (hpart.subset List.mem_cons_self) (hpart.subset hmem) hle]
  have := hstart t ht
  omega

/-! The braces behind a false box. -/

theorem reads_letters {word tail : List Char} (hword : ∀ c ∈ word, c.isAlpha = true)
    {ls : List Lexeme} (h : Reads (word ++ tail) ls) :
    ∃ ms, ls = word.map .letter ++ ms ∧ Reads tail ms := by
  induction word generalizing ls with
  | nil => exact ⟨ls, rfl, h⟩
  | cons c word ih =>
    obtain ⟨ms, rfl, hms⟩ := h.of_starts (.letter (hword c List.mem_cons_self))
    obtain ⟨ms, rfl, htail⟩ := ih (fun x hx => hword x (List.mem_cons_of_mem c hx)) hms
    exact ⟨ms, rfl, htail⟩

theorem length_tokensFrom_letters (p : Nat) (word : List Char) :
    (tokensFrom p (word.map .letter)).length = word.length := by
  induction word generalizing p with
  | nil => rfl
  | cons c word ih =>
    change (_ :: tokensFrom _ (word.map .letter)).length = _
    rw [List.length_cons, ih, List.length_cons]

theorem exists_braces {cs pre suf contents : List Char} {ls : List Lexeme} (h : Reads cs ls)
    (hcs : cs = pre ++ suf) (hbox : boxHere? suf = some contents)
    (hescape : Text.endsInEscape pre = true) :
    ∃ before inside after, ls = before ++ openBrace :: (inside ++ closeBrace :: after) ∧
      row inside = contents ∧ (∀ p, Paired (tokensFrom p inside)) ∧
      2 ≤ (tokensFrom 0 before).length := by
  obtain ⟨word, hword, tail, inner, rfl, htail, hc⟩ := boxHere?_eq_some hbox
  obtain ⟨name, hname, rfl⟩ := exists_boxName hword
  obtain ⟨hlength, halpha⟩ := alpha_of_boxName name hname
  rw [List.cons_append] at hcs
  obtain ⟨-, -, hfalse⟩ | ⟨ms, ns, -, rfl, hms, hns⟩ := h.at_backslash hcs
  · rw [hescape] at hfalse
    cases hfalse
  have hright := h.of_suffix
  rw [hns] at hright
  obtain ⟨ns, rfl, hreads⟩ := reads_letters halpha hright
  obtain ⟨gap, ns, rfl, -, hgap⟩ := hreads.dropWhile_blank
  have hbrace := hreads.of_suffix
  rw [hgap, htail] at hbrace
  obtain ⟨inside, after, rfl, hinside, hpaired⟩ := exists_contents hbrace hc
  refine ⟨ms ++ name.map .letter ++ gap, inside, after, by simp, hinside, hpaired, ?_⟩
  rw [Lexeme.tokensFrom_append, Lexeme.tokensFrom_append]
  simp only [List.length_append, length_tokensFrom_letters]
  omega

theorem bracesAfter_ne_zero {before inside : List Token} {o : Token}
    (ho : o.kind = .opening .curly) (hinside : Paired inside) :
    bracesAfter 0 (before ++ o :: inside) ≠ some 0 := by
  intro h
  rw [bracesAfter_append_eq] at h
  obtain ⟨k, -, hk⟩ := Option.bind_eq_some_iff.1 h
  rw [bracesAfter_opening ho, hinside] at hk
  simp at hk

theorem braces_of_unbox {stop : Nat} {before inside after inner : List Token} {o c : Token}
    (ho : o.kind = .opening .curly) (hinside : Paired inside) (hbefore : 2 ≤ before.length)
    (hu : unbox (before ++ o :: (inside ++ c :: after)) limit = .ok (inner, stop)) :
    ∃ ts us, inner = ts ++ o :: (inside ++ c :: us) := by
  generalize hts : before ++ o :: (inside ++ c :: after) = ts at hu
  cases unbox_eq_ok.1 hu with
  | plain => exact ⟨before, after, hts.symm⟩
  | @boxed first brace close _ tokens boxed opened closed braces nonempty =>
    obtain ⟨x, y, before, rfl⟩ : ∃ x y rest, before = x :: y :: rest := by
      match before, hbefore with
      | x :: y :: rest, _ => exact ⟨x, y, rest, rfl⟩
    rw [tokens] at hts
    simp only [List.cons_append, List.cons.injEq] at hts
    obtain ⟨-, -, hts⟩ := hts
    obtain rfl | ⟨us, u, rfl⟩ := List.eq_nil_or_concat after
    · have hinner : (before ++ o :: inside) ++ [c] = inner ++ [close] := by simpa using hts
      have hinner := (List.append_inj' hinner rfl).1
      rw [← hinner] at braces
      exact absurd braces (bracesAfter_ne_zero ho hinside)
    · have hinner : (before ++ o :: (inside ++ c :: us)) ++ [u] = inner ++ [close] := by
        simpa using hts
      exact ⟨before, us, (List.append_inj' hinner rfl).1.symm⟩

theorem sublist_of_unboxed {inner : List Token} {stop : Nat} (h : Unboxed ts limit inner stop) :
    inner.Sublist ts := by
  cases h with
  | plain => exact List.Sublist.refl _
  | boxed tokens =>
    rw [tokens]
    exact ((List.sublist_append_left _ _).cons _).cons _

theorem tokensFrom_braces (before inside after : List Lexeme) :
    ∃ o c, o.kind = .opening .curly ∧ o.start = Text.size (row before) ∧
      c.stop = Text.size (row before) + 1 + Text.size (row inside) + 1 ∧
      tokensFrom 0 (before ++ openBrace :: (inside ++ closeBrace :: after)) =
        tokensFrom 0 before ++ o :: (tokensFrom (Text.size (row before) + 1) inside ++ c ::
          tokensFrom (Text.size (row before) + 1 + Text.size (row inside) + 1) after) := by
  have hopen (q : Nat) : openBrace.tokens q = .ok [⟨.opening .curly, "\x7b", q, q + 1⟩] := rfl
  have hclose (q : Nat) : closeBrace.tokens q = .ok [⟨.closing .curly, "\x7d", q, q + 1⟩] := rfl
  rw [Lexeme.tokensFrom_append, Nat.zero_add, tokensFrom_one hopen, Lexeme.tokensFrom_append,
    tokensFrom_one hclose]
  refine ⟨_, _, ?_, ?_, ?_, rfl⟩ <;> rfl

variable {declared : List String} {input : String} {members : List Member}

theorem AllRead.braces {ts : List Token} (h : AllRead declared limit ts) :
    ∀ m ∈ splitMembers limit 0 ts, ∃ e, bracesAfter e m.1 = some 0 := by
  intro m hm
  obtain ⟨x, hx⟩ := h m hm
  exact ⟨0, paired_of_readMember hx 0⟩

/-- A member is longer than what stands in the braces of a false box. -/
theorem exists_long_source {pre contents : List Char} (hbox : firstBox? input.toList = some contents)
    (hpre : beforeBox? input.toList = some pre) (hescape : Text.endsInEscape pre = true)
    (hread : read declared input = .ok members) (hall : AllExpressions members) :
    ∃ m ∈ members, Text.size contents < Text.size m.source.toList := by
  obtain ⟨ls, inner, stop, hls, hne, hu, rfl⟩ := read_eq_ok.1 hread
  have hallRead := allRead_of_allExpressions hall
  obtain ⟨pre', suf, hcs, hpre', hsuf⟩ := beforeBox?_eq_some hbox
  obtain rfl : pre = pre' := by simpa [hpre] using hpre'
  obtain ⟨before, inside, after, rfl, rfl, hpaired, hlength⟩ := exists_braces hls hcs hsuf hescape
  obtain ⟨o, c, ho, hstart, hstop, htokens⟩ := tokensFrom_braces before inside after
  have hsublist := sublist_of_unboxed (unbox_eq_ok.1 hu)
  rw [htokens] at hu
  obtain ⟨ts, us, rfl⟩ := braces_of_unbox ho (hpaired _) hlength hu
  obtain ⟨m, hm, ts', us', hparts⟩ := exists_member_around ho (hpaired _) hallRead.braces
  refine ⟨_, List.mem_map_of_mem hm, ?_⟩
  have hsize : c.stop - o.start ≤ Text.size (sourceOf input m.1).toList := size_sourceOf hls
    ((sublist_of_mem_splitMembers hm).trans hsublist) (by simp [hparts]) (by simp [hparts])
  change _ < Text.size (sourceOf input m.1).toList
  omega

theorem size_source_le (hread : read declared input = .ok members) :
    ∀ m ∈ members, Text.size m.source.toList ≤ Text.size input.toList := by
  obtain ⟨ls, inner, stop, -, -, -, rfl⟩ := read_eq_ok.1 hread
  intro m hm
  obtain ⟨part, -, rfl⟩ := List.mem_map.1 hm
  simp only [sourceOf]
  split
  · rw [String.toList_ofList]
    exact Text.size_slice_le _ _ _
  · exact Nat.zero_le _

end Answer

end AnswerKey

import AnswerKey.Proofs.Answer.BoxContents
import AnswerKey.Proofs.Answer.Faultless
import AnswerKey.Proofs.Grammar.Spacing

/-! Where the errors of an answer are reported: between two characters of its text, and
at the text that they quote. -/
namespace AnswerKey

open Answer (splitMembers splitAtClose depthAfterAll)
open Lexeme (Reads row tokensFrom)
open Text (IsBoundary size dropBytes)

namespace Token

/-- The text is what is left of the token at a position, behind digits taken from it. -/
def LeftAt (t : Token) (p : Nat) (text : String) : Prop :=
  ∃ taken, t.text.toList = taken ++ text.toList ∧ (∀ d ∈ taken, d.isDigit = true) ∧
    p = t.start + taken.length

theorem leftAt_start (t : Token) : t.LeftAt t.start t.text := ⟨[], rfl, nofun, rfl⟩

end Token

/-- The error is reported between two characters of the input. What it quotes is left
there of a token, and stands there in the input unless the token is a name. -/
structure SyntaxError.SoundIn (input : String) (e : SyntaxError) : Prop where
  boundary : IsBoundary input.toList e.position
  quotation : ∀ text, e.found = .token text → ∃ ts t, Token.lex input = .ok ts ∧ t ∈ ts ∧
    t.LeftAt e.position text ∧ (t.kind ≠ .symbol → t.kind ≠ .differential →
      text.toList <+: dropBytes e.position input.toList)

def ReadingError.SoundIn (input : String) : ReadingError → Prop
  | lexical e => IsBoundary input.toList e.position
  | grammatical e => e.SoundIn input
  | unsupported _ => True

namespace Answer

variable {declared : List String} {input : String} {ls : List Lexeme} {ts part : List Token}
  {t : Token} {p limit : Nat} {text : String} {e : SyntaxError}

/-! Errors at ends and at tokens. -/

theorem soundIn_of_unquoted {expected : Expected} {found : Found}
    (boundary : IsBoundary input.toList p) (unquoted : ∀ text, found ≠ .token text) :
    SyntaxError.SoundIn input ⟨p, expected, found⟩ where
  boundary := boundary
  quotation text h := absurd h (unquoted text)

theorem soundIn_of_leftAt (h : Reads input.toList ls) (ht : t ∈ tokensFrom 0 ls)
    (left : t.LeftAt p text) (expected : Expected) :
    SyntaxError.SoundIn input ⟨p, expected, .token text⟩ := by
  have hlex : Token.lex input = .ok (tokensFrom 0 ls) := Token.lexFrom_eq_ok.2 ⟨ls, h, rfl⟩
  obtain ⟨before, after, hts⟩ := List.append_of_mem ht
  obtain ⟨ms, l, ns, -, hinput, -, hstart, -, -, hl⟩ := Token.exists_place h hts
  have left' := left
  obtain ⟨taken, htext, digits, rfl⟩ := left
  obtain written | ⟨named, letters⟩ := Lexeme.text_of_token hl
  · have place : input.toList = (row ms ++ taken) ++ (text.toList ++ row ns) := by
      rw [hinput, ← written, htext]
      simp
    have hsize : size (row ms ++ taken) = t.start + taken.length := by
      rw [Text.size_append, hstart, Text.size_of_digits digits]
    refine ⟨⟨_, _, place, hsize⟩, ?_⟩
    rintro _ ⟨⟩
    refine ⟨_, t, hlex, ht, left', fun _ _ => ?_⟩
    rw [place, ← hsize, Text.dropBytes_size_append]
    exact List.prefix_append _ _
  · obtain rfl : taken = [] := by
      refine List.eq_nil_iff_forall_not_mem.2 fun d hd => ?_
      have letter := Lexeme.isDigit_of_isAlpha (letters d (by simp [htext, hd]))
      exact absurd (digits d hd) (by simp [letter])
    refine ⟨(Token.standsIn_of_mem h ht).start, ?_⟩
    rintro _ ⟨⟩
    exact ⟨_, t, hlex, ht, left', fun symbol differential =>
      absurd named (by simp [symbol, differential])⟩

theorem soundIn_of_token (h : Reads input.toList ls) (ht : t ∈ tokensFrom 0 ls)
    (expected : Expected) : SyntaxError.SoundIn input ⟨t.start, expected, .token t.text⟩ :=
  soundIn_of_leftAt h ht t.leftAt_start expected

/-! The grammar. -/

/-- An error of some tokens is at their end, or at what is left of one of them: they are
refused alike when they are read beside themselves. -/
theorem soundIn_of_ofTokens (h : Reads input.toList ls) (hpart : ∀ t ∈ part, t ∈ tokensFrom 0 ls)
    (hlimit : IsBoundary input.toList limit)
    (he : Formula.ofTokens declared part limit = .error e) : e.SoundIn input := by
  let T : Grammar.Twins := ⟨part, part, limit, limit, rfl⟩
  have flush : T.Flush := by
    intro i k t v u w ht hv hu hw
    obtain rfl := Option.some.inj (ht.symm.trans hu)
    obtain rfl := Option.some.inj (hv.symm.trans hw)
    exact Iff.rfl
  have start : T.Beside (.start part limit) (.start part limit) := Grammar.Twins.Beside.start
  have among {e e' : SyntaxError} (h' : SameError part part limit limit e e') : e.SoundIn input := by
    cases h' with
    | atEnd expected => exact soundIn_of_unquoted hlimit (by simp)
    | atToken here _ text digits expected =>
      exact soundIn_of_leftAt h (hpart _ (List.mem_of_getElem? here))
        ⟨_, by simpa using text, digits, rfl⟩ expected
  have whole := (Grammar.Twins.kept_rules (.inr flush) declared
    (Grammar.sufficientDepth (.start part limit))).ofWholeMember start
  unfold Formula.ofTokens at he
  dsimp only at he
  generalize Grammar.wholeMember _ (Cursor.start part limit) = a at whole he
  cases whole with
  | ok => cases he
  | error failure =>
    cases failure with
    | refused same =>
      obtain rfl := Except.error.inj he
      exact among same
    | exhausted =>
      obtain rfl := Except.error.inj he
      exact among (start.errorAt _)

/-! The box and the members. -/

theorem text_of_close (h : Reads input.toList ls) (ht : t ∈ tokensFrom 0 ls)
    (closed : t.kind = .closing .curly) : t.text = Delimiter.curly.closer := by
  obtain ⟨before, after, hts⟩ := List.append_of_mem ht
  obtain ⟨ms, l, ns, rfl, -, -, -, -, -, hl⟩ := Token.exists_place h hts
  obtain rfl := (brace_of_curly h.of_suffix.starts (h.legal l (by simp)) hl).2 closed
  obtain ⟨ht, -⟩ := List.cons.inj (Except.ok.inj hl)
  rw [← ht]
  rfl

theorem soundIn_of_unbox (h : Reads input.toList ls)
    (he : unbox (tokensFrom 0 ls) (size input.toList) = .error e) : e.SoundIn input := by
  have close {t : Token} (ht : t ∈ tokensFrom 0 ls) (closed : t.kind = .closing .curly) :
      SyntaxError.SoundIn input ⟨t.start, .expression, .token Delimiter.curly.closer⟩ :=
    text_of_close h ht closed ▸ soundIn_of_token h ht .expression
  have token {t : Token} (ht : t ∈ tokensFrom 0 ls) := soundIn_of_token h ht
  have ends (expected : Expected) :
      SyntaxError.SoundIn input ⟨size input.toList, expected, .endOfInput⟩ :=
    soundIn_of_unquoted (Text.isBoundary_size _) (by simp)
  generalize tokensFrom 0 ls = ts at he close token
  match ts, he with
  | [], he => cases he
  | [t], he =>
    simp only [unbox] at he
    split at he
    · obtain rfl := Except.error.inj he
      exact ends .brace
    · cases he
  | t :: brace :: inner, he =>
    simp only [unbox] at he
    split at he
    · split at he
      · split at he
        · obtain rfl := Except.error.inj he
          exact ends _
        · next before closing trailing after hsplit =>
          obtain rfl := Except.error.inj he
          obtain ⟨rfl, -⟩ := splitAtClose_eq_some hsplit
          exact token (by simp) _
        · next closing hsplit =>
          obtain rfl := Except.error.inj he
          obtain ⟨rfl, closed, -⟩ := splitAtClose_eq_some hsplit
          exact close (by simp) closed
        · cases he
      · obtain rfl := Except.error.inj he
        exact token (by simp) _
    · cases he

theorem stop_of_mem_splitMembers {depth : Int} {m : List Token × Nat}
    (h : m ∈ splitMembers limit depth ts) : m.2 = limit ∨ ∃ t ∈ ts, m.2 = t.start := by
  induction ts generalizing depth m with
  | nil =>
    obtain rfl : m = ([], limit) := by simpa [splitMembers] using h
    exact .inl rfl
  | cons u ts ih =>
    have further (hm : m.2 = limit ∨ ∃ t ∈ ts, m.2 = t.start) :
        m.2 = limit ∨ ∃ t ∈ u :: ts, m.2 = t.start := by
      obtain hstop | ⟨t, ht, hstop⟩ := hm
      · exact .inl hstop
      · exact .inr ⟨t, List.mem_cons_of_mem u ht, hstop⟩
    by_cases hcut : depth = 0 ∧ isSeparator u.kind = true
    · simp only [splitMembers, if_pos hcut] at h
      obtain rfl | h := List.mem_cons.1 h
      · exact .inr ⟨u, List.mem_cons_self, rfl⟩
      · exact further (ih h)
    · obtain ⟨part, stop, others, hrest, hcons⟩ := splitMembers_cons limit ts hcut
      rw [hcons] at h
      obtain rfl | h := List.mem_cons.1 h
      · exact further (ih (m := (part, stop)) (hrest ▸ List.mem_cons_self))
      · exact further (ih (hrest ▸ List.mem_cons_of_mem _ h))

theorem stop_of_unbox {inner : List Token} {stop : Nat}
    (h : unbox ts limit = .ok (inner, stop)) : stop = limit ∨ ∃ t ∈ ts, stop = t.start := by
  cases unbox_eq_ok.1 h with
  | plain => exact .inl rfl
  | boxed tokens => exact .inr ⟨_, by simp [tokens], rfl⟩

theorem soundIn_of_readMember {r : ReadingError} (h : Reads input.toList ls)
    (hpart : ∀ t ∈ part, t ∈ tokensFrom 0 ls) (hlimit : IsBoundary input.toList limit)
    (he : readMember declared part limit = .error r) : r.SoundIn input := by
  simp only [readMember] at he
  split at he
  · obtain rfl := Except.error.inj he
    exact soundIn_of_unquoted hlimit (by simp)
  · cases hf : Formula.ofTokens declared part limit with
    | error e =>
      rw [hf] at he
      obtain rfl := Except.error.inj he
      exact soundIn_of_ofTokens h hpart hlimit hf
    | ok f =>
      simp only [hf, mapError_ok, bind, Except.bind] at he
      cases hx : f.toExpr with
      | error u =>
        rw [hx] at he
        obtain rfl := Except.error.inj he
        trivial
      | ok x =>
        rw [hx] at he
        cases he

/-! Lexical errors. -/

theorem position_of_tokens {l : Lexeme} {e : LexicalError} (h : l.tokens p = .error e) :
    e.position = p := by
  cases hm : l.meaning p with
  | ok m => simp [Lexeme.tokens, hm, Except.map] at h
  | error e' =>
    obtain rfl : e' = e := by simpa [Lexeme.tokens, hm, Except.map] using h
    cases l with
    | command | wrapped =>
      simp only [Lexeme.meaning] at hm
      split at hm <;> cases hm
      rfl
    | unterminated | unexpected =>
      cases hm
      rfl
    | _ => cases hm

theorem boundary_of_lexFrom {skip : Nat} {cs : List Char} {e : LexicalError}
    (h : Token.lexFrom p skip cs = .error e) : ∃ q, e.position = p + q ∧ IsBoundary cs q := by
  induction cs generalizing p skip with
  | nil => cases h
  | cons c cs ih =>
    have further {skip : Nat} (h : Token.lexFrom (p + c.utf8Size) skip cs = .error e) :
        ∃ q, e.position = p + q ∧ IsBoundary (c :: cs) q := by
      obtain ⟨q, hq, boundary⟩ := ih h
      exact ⟨_, by rw [hq, Nat.add_assoc]; rfl, boundary.behind [c]⟩
    cases skip with
    | succ skip => exact further h
    | zero =>
      simp only [Token.lexFrom, bind_eq_error] at h
      obtain h | ⟨first, -, h | ⟨rest, -, h⟩⟩ := h
      · exact ⟨0, position_of_tokens h, [], c :: cs, rfl, rfl⟩
      · exact further h
      · cases h

/-! Counts. -/

theorem length_tokensFrom_le {cs : List Char} (h : Reads cs ls) (p : Nat) :
    (tokensFrom p ls).length ≤ size cs := by
  induction h generalizing p with
  | nil => exact Nat.le_refl _
  | @cons l ls cs rest starts legal more ih =>
    have hsize := Lexeme.size_pos starts.text_ne_nil
    have hrest := ih (p + size l.text)
    rw [starts.text, Text.size_append]
    obtain hl | ⟨kind, name, hl⟩ := Lexeme.tokens_eq_ok legal
    · rw [Lexeme.tokensFrom_none hl]
      omega
    · rw [Lexeme.tokensFrom_one hl, List.length_cons]
      omega

theorem natAbs_depthAfterAll_le (depth : Int) (ts : List Token) :
    (depthAfterAll depth ts).natAbs ≤ depth.natAbs + ts.length := by
  induction ts generalizing depth with
  | nil => exact Nat.le_refl _
  | cons t ts ih =>
    have step : (depthAfter depth t.kind).natAbs ≤ depth.natAbs + 1 := by
      unfold depthAfter
      split <;> omega
    have rest := ih (depthAfter depth t.kind)
    rw [List.length_cons]
    simp only [depthAfterAll, List.foldl_cons] at rest ⊢
    omega

theorem natAbs_depthAfterAll_le_size (hlex : Token.lex input = .ok ts) (hpart : part <:+: ts) :
    (depthAfterAll 0 part).natAbs ≤ size input.toList := by
  obtain ⟨ls, hls, rfl⟩ := Token.lexFrom_eq_ok.1 hlex
  have depth := natAbs_depthAfterAll_le 0 part
  have length := length_tokensFrom_le hls 0
  have part_le := hpart.length_le
  simp only [Int.natAbs_zero] at depth
  omega

/-! The errors of a reading. -/

theorem soundIn_of_read {r : ReadingError} (he : read declared input = .error r) :
    r.SoundIn input := by
  simp only [read, bind_eq_error] at he
  obtain he | ⟨ts, hlex, he⟩ := he
  · cases hlex : Token.lex input with
    | ok ts => simp [hlex] at he
    | error lexical =>
      rw [hlex] at he
      obtain rfl := Except.error.inj he
      obtain ⟨q, hq, boundary⟩ := boundary_of_lexFrom hlex
      rw [Nat.zero_add] at hq
      exact show IsBoundary _ lexical.position from hq ▸ boundary
  · obtain ⟨ls, hls, rfl⟩ := Token.lexFrom_eq_ok.1 (mapError_eq_ok.1 hlex)
    split at he
    · obtain rfl := Except.error.inj he
      exact soundIn_of_unquoted (Text.isBoundary_size _) (by simp)
    · cases hu : unbox (tokensFrom 0 ls) (size input.toList) with
      | ok inside =>
        rw [hu] at he
        cases he
      | error e =>
        rw [hu] at he
        obtain rfl := Except.error.inj he
        exact soundIn_of_unbox hls hu

theorem soundIn_of_member {r : ReadingError} {members : List Member} {m : Member}
    (hread : read declared input = .ok members) (hm : m ∈ members) (he : m.expr = .error r) :
    r.SoundIn input := by
  obtain ⟨ls, inner, stop, hls, -, hu, rfl⟩ := read_eq_ok.1 hread
  obtain ⟨⟨part, stop'⟩, hpart, rfl⟩ := List.mem_map.1 hm
  have among := (sublist_of_unboxed (unbox_eq_ok.1 hu)).subset
  have start {t : Token} (ht : t ∈ tokensFrom 0 ls) : IsBoundary input.toList t.start :=
    (Token.standsIn_of_mem hls ht).start
  have hstop : IsBoundary input.toList stop' := by
    obtain rfl | ⟨t, ht, rfl⟩ := stop_of_mem_splitMembers hpart
    · obtain rfl | ⟨t, ht, rfl⟩ := stop_of_unbox hu
      · exact Text.isBoundary_size _
      · exact start ht
    · exact start (among ht)
  exact soundIn_of_readMember hls
    (fun t ht => among ((sublist_of_mem_splitMembers hpart).subset ht)) hstop he

/-- Reading an answer comes to no fault, and no step of its grammar does: no text is cut
inside a character, no token is missing where one is taken, and no brace closes a box
that is not open. Inside brackets and outside, as many brackets are open at most as the
input has bytes. The errors of the text and of its grammar, for the whole answer and for
its members, are at sound places. -/
theorem read_faultless (declared : List String) (input : String) :
    Checked.read declared input = .ok (read declared input) ∧
      (∀ c, Checked.takeDigit? c = .ok c.takeDigit?) ∧
      (∀ mode c, Checked.startsApplication declared mode c =
        .ok (Grammar.startsApplication declared mode c)) ∧
      (∀ ts part, Token.lex input = .ok ts → part <:+: ts →
        (depthAfterAll 0 part).natAbs ≤ size input.toList) ∧
      (∀ e, read declared input = .error e → e.SoundIn input) ∧
      ∀ members, read declared input = .ok members →
        ∀ m ∈ members, ∀ e, m.expr = .error e → e.SoundIn input :=
  ⟨Checked.read_eq declared input, Checked.takeDigit_eq, Checked.startsApplication_eq declared,
    fun _ _ => natAbs_depthAfterAll_le_size, fun _ => soundIn_of_read,
    fun _ hread _ hm _ => soundIn_of_member hread hm⟩

-- The subscript takes `1` from the number; the minus sign is three bytes long.
example : read [] "−\\sum_\x7bi_12=1\x7d^3i" = .ok [⟨"−\\sum_\x7bi_12=1\x7d^3i",
    .error (.grammatical ⟨12, .equals, .token "2"⟩)⟩] := rfl

end Answer

end AnswerKey

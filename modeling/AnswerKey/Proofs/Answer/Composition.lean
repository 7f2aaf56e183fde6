import AnswerKey.Proofs.Answer.Boxing
import AnswerKey.Proofs.Answer.Single

/-! Answers put together from members that are read alone. The members of the
whole are the parts just when each part but the last closes all the brackets
that it opens and opens all those that it closes. -/
namespace AnswerKey.Answer

open Lexeme (Reads row tokensFrom)

inductive Separator where
  | comma | semicolon

namespace Separator

def char : Separator → Char
  | comma => ','
  | semicolon => ';'

def kind : Separator → Token.Kind
  | comma => .comma
  | semicolon => .semicolon

end Separator

structure Part (declared : List String) where
  text : String
  expr : Expr
  alone : single? declared text = some expr
  unboxed : ∀ ts, Token.lex text = .ok ts → ∀ t ∈ ts.head?, t.kind ≠ .boxed

def IsLevel (text : String) : Prop :=
  ∀ ts, Token.lex text = .ok ts → depthAfterAll 0 ts = 0

def joined {declared : List String} (parts : List (Part declared × Separator))
    (last : Part declared) : String :=
  match parts with
  | [] => last.text
  | (part, separator) :: parts =>
    part.text ++ separator.char.toString ++ joined parts last

def boxed (text : String) : String := "\\boxed\x7b" ++ text ++ "\x7d"

def partExprs {declared : List String} (parts : List (Part declared × Separator))
    (last : Part declared) : List Expr :=
  parts.map (·.1.expr) ++ [last.expr]

def ReadsAs (declared : List String) (text : String) (exprs : List Expr) : Prop :=
  ∃ members, read declared text = .ok members ∧ members.map (·.expr) = exprs.map .ok

variable {declared : List String}

structure ReadAlone (declared : List String) (ls : List Lexeme) (x : Expr) : Prop where
  unboxed : ∀ t ∈ (tokensFrom 0 ls).head?, t.kind ≠ .boxed
  uncut : ∀ p, Uncut 0 (tokensFrom p ls)
  member : ∀ p limit, readMember declared (tokensFrom p ls) limit = .ok x

theorem Part.readAlone (part : Part declared) :
    ∃ ls, Reads part.text.toList ls ∧ ReadAlone declared ls part.expr := by
  obtain ⟨source, hread⟩ := single?_eq_some.1 part.alone
  simp only [read, bind_eq_ok, mapError_eq_ok] at hread
  obtain ⟨ts, hlex, hread⟩ := hread
  obtain ⟨ls, hls, hts⟩ := Token.lexFrom_eq_ok.1 hlex
  have hunboxed := part.unboxed ts hlex
  split at hread
  · cases hread
  · simp only [unbox_of_unboxed hunboxed, mapError_ok, bind_eq_ok, pure_eq_ok] at hread
    obtain ⟨⟨inner, stop⟩, hinner, hmembers⟩ := hread
    cases hinner
    obtain ⟨member, hsplit, hmember⟩ := List.map_eq_singleton_iff.1 hmembers
    have huncut := uncut_of_splitMembers hsplit
    rw [splitMembers_of_uncut huncut] at hsplit
    cases hsplit
    simp only [Member.mk.injEq] at hmember
    subst hts
    refine ⟨ls, hls, hunboxed, fun p => ?_, fun p limit => readMember_moved hls hmember.2 p limit⟩
    exact (uncut_congr (kinds_of_alikeFrom (moved hls 0 p))).1.2 huncut

theorem isLevel_iff {text : String} {ls : List Lexeme} (h : Reads text.toList ls) (p : Nat) :
    IsLevel text ↔ depthAfterAll 0 (tokensFrom p ls) = 0 := by
  have hlex : Token.lex text = .ok (tokensFrom 0 ls) := Token.lexFrom_eq_ok.2 ⟨ls, h, rfl⟩
  rw [(uncut_congr (kinds_of_alikeFrom (moved h 0 p))).2]
  constructor
  · exact fun hlevel => hlevel _ hlex
  · intro hdepth ts hts
    rw [hlex] at hts
    cases hts
    exact hdepth

def MembersAre (declared : List String) (limit : Nat) (ts : List Token) (exprs : List Expr) :
    Prop :=
  ((splitMembers limit 0 ts).map fun (part, stop) => readMember declared part stop) =
    exprs.map .ok

structure Boxable (ls : List Lexeme) : Prop where
  nonempty : ∀ p, tokensFrom p ls ≠ []
  unboxed : ∀ t ∈ (tokensFrom 0 ls).head?, t.kind ≠ .boxed
  paired : ∀ p, Paired (tokensFrom p ls)

theorem ReadAlone.boxable {ls : List Lexeme} {x : Expr} (h : ReadAlone declared ls x) :
    Boxable ls where
  nonempty p := (readMember_eq_ok.1 (h.member p 0)).1
  unboxed := h.unboxed
  paired p := paired_of_readMember (h.member p 0)

def Separator.lexeme (separator : Separator) : Lexeme := .mark separator.kind [separator.char]

theorem Separator.tokensFrom_cons (separator : Separator) (p : Nat) (ls : List Lexeme) :
    ∃ t, t.kind = separator.kind ∧
      tokensFrom p (separator.lexeme :: ls) = t :: tokensFrom (p + 1) ls := by
  cases separator with
  | comma => exact ⟨_, rfl, rfl⟩
  | semicolon => exact ⟨_, rfl, rfl⟩

theorem Separator.isSeparator_kind (separator : Separator) :
    isSeparator separator.kind = true := by
  cases separator <;> rfl

theorem Separator.reads (separator : Separator) {cs : List Char} {ls : List Lexeme}
    (h : Reads cs ls) : Reads (separator.char :: cs) (separator.lexeme :: ls) := by
  cases separator with
  | comma => exact .cons (.mark rfl (by simp [char])) ⟨_, rfl⟩ h
  | semicolon => exact .cons (.mark rfl (by simp [char])) ⟨_, rfl⟩ h

section Step

variable {ls ms : List Lexeme} {x : Expr} {exprs : List Expr} {cs : List Char}

theorem Boxable.cons (h : ReadAlone declared ls x) (separator : Separator) (hms : Boxable ms) :
    Boxable (ls ++ separator.lexeme :: ms) := by
  have hls := h.boxable
  refine ⟨fun p => ?_, ?_, fun p => ?_⟩
  · rw [Lexeme.tokensFrom_append]
    exact List.append_ne_nil_of_left_ne_nil (hls.nonempty p) _
  · rw [Lexeme.tokensFrom_append]
    have hunboxed := hls.unboxed
    cases hts : tokensFrom 0 ls with
    | nil => exact absurd hts (hls.nonempty 0)
    | cons t ts => simpa [hts] using hunboxed
  · obtain ⟨t, hk, ht⟩ := separator.tokensFrom_cons (p + Text.size (row ls)) ms
    rw [Lexeme.tokensFrom_append, ht]
    have hplain : t.kind.isPlain = true := by cases separator <;> rw [hk] <;> rfl
    exact (hls.paired p).append ((hms.paired _).plain hplain)

/-- One part more: it is a member of its own just when it is level. -/
theorem membersAre_cons {p limit : Nat} (hls : Reads cs ls) (h : ReadAlone declared ls x)
    (separator : Separator) :
    MembersAre declared limit (tokensFrom p (ls ++ separator.lexeme :: ms)) (x :: exprs) ↔
      depthAfterAll 0 (tokensFrom p ls) = 0 ∧
        MembersAre declared limit (tokensFrom (p + Text.size (row ls) + 1) ms) exprs := by
  obtain ⟨t, hk, ht⟩ := separator.tokensFrom_cons (p + Text.size (row ls)) ms
  have hs : isSeparator t.kind = true := hk ▸ separator.isSeparator_kind
  rw [Lexeme.tokensFrom_append, ht]
  simp only [MembersAre]
  by_cases hlevel : depthAfterAll 0 (tokensFrom p ls) = 0
  · rw [splitMembers_of_level (h.uncut p) hs hlevel]
    simp [hlevel, h.member]
  · obtain ⟨more, stop, others, hsplit⟩ := splitMembers_of_not_level limit t
      (tokensFrom (p + Text.size (row ls) + 1) ms) (h.uncut p) hlevel
    rw [hsplit]
    refine ⟨fun heq => ?_, fun hboth => absurd hboth.1 hlevel⟩
    exact absurd (List.cons.inj heq).1 (readMember_ne_ok hls (h.member 0 0) hs x)

end Step

theorem exists_row (parts : List (Part declared × Separator)) (last : Part declared) :
    ∃ ls, Reads (joined parts last).toList ls ∧ Boxable ls ∧ ∀ p limit,
      (MembersAre declared limit (tokensFrom p ls) (partExprs parts last) ↔
        ∀ q ∈ parts, IsLevel q.1.text) := by
  induction parts with
  | nil =>
    obtain ⟨ls, hls, halone⟩ := last.readAlone
    refine ⟨ls, hls, halone.boxable, fun p limit => ?_⟩
    rw [MembersAre, splitMembers_of_uncut (halone.uncut p)]
    simp [partExprs, halone.member]
  | cons q parts ih =>
    obtain ⟨part, separator⟩ := q
    obtain ⟨ms, hms, hboxable, hmembers⟩ := ih
    obtain ⟨ls, hls, halone⟩ := part.readAlone
    refine ⟨ls ++ separator.lexeme :: ms, ?_, hboxable.cons halone separator, fun p limit => ?_⟩
    · have hclosing : Lexeme.isClosing separator.char = true := by cases separator <;> rfl
      have h := hls.append (separator.reads hms) (by simpa using hclosing)
      simpa [joined, String.toList_append] using h
    · rw [partExprs, List.map_cons, List.cons_append, membersAre_cons hls halone separator,
        ← isLevel_iff hls, ← partExprs, hmembers]
      simp

theorem readsAs_iff {text : String} {exprs : List Expr} {ls : List Lexeme} {inner : List Token}
    {stop : Nat} (h : Reads text.toList ls) (hne : tokensFrom 0 ls ≠ [])
    (hu : unbox (tokensFrom 0 ls) (Text.size text.toList) = .ok (inner, stop)) :
    ReadsAs declared text exprs ↔ MembersAre declared stop inner exprs := by
  have hread : read declared text = _ := read_of_unbox h hne hu
  simp [ReadsAs, MembersAre, hread, Function.comp_def]

def boxedRow (ls : List Lexeme) : List Lexeme :=
  .command "boxed".toList :: .mark (.opening .curly) ['\x7b'] ::
    (ls ++ [.mark (.closing .curly) ['\x7d']])

theorem reads_boxed {text : String} {ls : List Lexeme} (h : Reads text.toList ls) :
    Reads (boxed text).toList (boxedRow ls) := by
  have hclose : Reads ['\x7d'] [.mark (.closing .curly) ['\x7d']] :=
    .cons (.mark rfl (by decide)) ⟨_, rfl⟩ .nil
  have hinner : Reads (text.toList ++ ['\x7d'])
      (ls ++ [.mark (.closing .curly) ['\x7d']]) := by
    refine h.append hclose ?_
    rintro c ⟨⟩
    decide
  have hopen : Reads ('\x7b' :: (text.toList ++ ['\x7d']))
      (.mark (.opening .curly) ['\x7b'] :: (ls ++ [.mark (.closing .curly) ['\x7d']])) :=
    .cons (.mark rfl (by simp)) ⟨_, rfl⟩ hinner
  have hcommand : Lexeme.Starts (.command "boxed".toList)
      ('\\' :: "boxed".toList ++ '\x7b' :: (text.toList ++ ['\x7d']))
      ('\x7b' :: (text.toList ++ ['\x7d'])) :=
    .command (by decide) (Text.forall_of_all (by decide)) (by simp) fun hw => absurd hw (by decide)
  have hall := Reads.cons hcommand ⟨.mark .boxed, rfl⟩ hopen
  simpa [boxed, boxedRow, String.toList_append] using hall

theorem tokensFrom_boxedRow (ls : List Lexeme) :
    ∃ first brace close, tokensFrom 0 (boxedRow ls) = first :: brace :: (tokensFrom 7 ls ++ [close]) ∧
      first.kind = .boxed ∧ brace.kind = .opening .curly ∧ close.kind = .closing .curly := by
  refine ⟨⟨.boxed, "\\boxed", 0, 6⟩, ⟨.opening .curly, "\x7b", 6, 7⟩,
    ⟨.closing .curly, "\x7d", 7 + Text.size (row ls), 7 + Text.size (row ls) + 1⟩, ?_,
    rfl, rfl, rfl⟩
  change _ :: _ :: tokensFrom 7 (ls ++ _) = _
  rw [Lexeme.tokensFrom_append]
  rfl

/-- Parts that are joined, in a box or not, are the members of the whole just
when each of them but the last is level. -/
theorem readsAs_joined (parts : List (Part declared × Separator)) (last : Part declared) :
    (ReadsAs declared (joined parts last) (partExprs parts last) ↔
        ∀ q ∈ parts, IsLevel q.1.text) ∧
      (ReadsAs declared (boxed (joined parts last)) (partExprs parts last) ↔
        ∀ q ∈ parts, IsLevel q.1.text) := by
  obtain ⟨ls, hls, hboxable, hmembers⟩ := exists_row parts last
  constructor
  · rw [readsAs_iff hls (hboxable.nonempty 0) (unbox_of_unboxed hboxable.unboxed)]
    exact hmembers 0 _
  · obtain ⟨first, brace, close, htokens, hfirst, hbrace, hclose⟩ := tokensFrom_boxedRow ls
    have hne : tokensFrom 0 (boxedRow ls) ≠ [] := by simp [htokens]
    have hu := unbox_of_boxed (Text.size (boxed (joined parts last)).toList) hfirst hbrace hclose
      (hboxable.paired 7 0) (hboxable.nonempty 7)
    rw [← htokens] at hu
    rw [readsAs_iff (reads_boxed hls) hne hu]
    exact hmembers 7 _

/-- A ket closes an angle that it does not open, so that a separator after it
does not cut. -/
theorem readsAs_ket_and_number : ¬∀ (declared : List String)
    (parts : List (Part declared × Separator)) (last : Part declared),
    ReadsAs declared (joined parts last) (partExprs parts last) ∧
      ReadsAs declared (boxed (joined parts last)) (partExprs parts last) := by
  intro h
  have hket : (single? ["x"] "|x\\rangle").isSome = true := by decide +kernel
  have htwo : (single? ["x"] "2").isSome = true := by decide +kernel
  have hcount : (read ["x"] "|x\\rangle,2").toOption.map List.length = some 1 := by decide +kernel
  obtain ⟨x, hx⟩ := Option.isSome_iff_exists.1 hket
  obtain ⟨y, hy⟩ := Option.isSome_iff_exists.1 htwo
  have unboxed : ∀ ts, Token.lex "|x\\rangle" = .ok ts → ∀ t ∈ ts.head?, t.kind ≠ .boxed := by
    rintro ts ⟨⟩
    decide
  have unboxed' : ∀ ts, Token.lex "2" = .ok ts → ∀ t ∈ ts.head?, t.kind ≠ .boxed := by
    rintro ts ⟨⟩
    decide
  obtain ⟨⟨members, hread, hmembers⟩, -⟩ :=
    h ["x"] [(⟨"|x\\rangle", x, hx, unboxed⟩, .comma)] ⟨"2", y, hy, unboxed'⟩
  have htext : "|x\\rangle" ++ Separator.comma.char.toString ++ "2" = "|x\\rangle,2" := by decide
  rw [joined, joined, htext] at hread
  rw [hread] at hcount
  have hlength := congrArg List.length hmembers
  simp [partExprs, Except.toOption] at hcount hlength
  omega

end AnswerKey.Answer

import AnswerKey.Proofs.Answer.FalseBox
import AnswerKey.Proofs.Grammar.Splicing
import AnswerKey.Proofs.Token.Words

/-! Braces around the first digit of a number behind a script mark. -/
namespace AnswerKey

namespace Text

theorem append_inj_of_size {a b c d : List Char} (h : a ++ b = c ++ d) (hs : size a = size c) :
    a = c ∧ b = d := by
  have ha : a = c := by rw [← takeBytes_size_append a b, h, hs, takeBytes_size_append]
  exact ⟨ha, List.append_cancel_left (ha ▸ h)⟩

end Text

namespace Lexeme

theorem exists_eq_append_of_digits {a b ds tail : List Char} (ha : ∀ c ∈ a, c.isDigit = true)
    (h : ds ++ tail = a ++ b) (stop : ∀ c ∈ tail.head?, c.isDigit = false) :
    ∃ more, ds = a ++ more ∧ b = more ++ tail := by
  obtain ⟨further, rfl, htail⟩ | ⟨more, hds, hb⟩ := List.append_eq_append_iff.1 h
  · cases further with
    | nil => exact ⟨[], by simp, by simpa using htail.symm⟩
    | cons c further =>
      have hdigit := ha c (by simp)
      simp [stop c (by simp [htail])] at hdigit
  · exact ⟨more, hds, hb⟩

theorem Starts.tail_of_number {c : Char} {ds r v rest : List Char}
    (h : Starts (.number ds) (c :: (r ++ v)) rest) (isDigit : c.isDigit = true)
    (digits : ∀ x ∈ r, x.isDigit = true) (nonempty : r ≠ []) :
    ∃ others, ds = c :: others ∧ others ≠ [] ∧ Starts (.number others) (r ++ v) rest := by
  have all : ∀ x ∈ c :: r, x.isDigit = true := List.forall_mem_cons.2 ⟨isDigit, digits⟩
  generalize hcs : c :: (r ++ v) = cs at h
  rw [← List.cons_append] at hcs
  cases h with
  | integer _ figures stop =>
    obtain ⟨more, rfl, rfl⟩ := exists_eq_append_of_digits all hcs.symm fun x hx => (stop x hx).1
    refine ⟨r ++ more, rfl, by simp [nonempty], ?_⟩
    rw [← List.append_assoc]
    exact .integer (by simp [nonempty]) (fun x hx => figures x (List.mem_cons_of_mem c hx)) stop
  | @decimal ds fs _ figures decimals _ stop =>
    have hds : ds ++ '.' :: (fs ++ rest) = c :: r ++ v := by simpa using hcs.symm
    obtain ⟨more, rfl, rfl⟩ := exists_eq_append_of_digits all hds (by simp)
    have figures : ∀ x ∈ r ++ more, x.isDigit = true :=
      fun x hx => figures x (List.mem_cons_of_mem c hx)
    have starts := Starts.decimal figures decimals (.inl (by simp [nonempty])) stop
    exact ⟨r ++ more ++ '.' :: fs, by simp, by simp [nonempty], by simpa using starts⟩

def bracedDigit (c : Char) : List Lexeme :=
  [mark (.opening .curly) ['\x7b'], number [c], mark (.closing .curly) ['\x7d']]

theorem Reads.bracedDigit {c : Char} {cs : List Char} {ls : List Lexeme} (h : Reads cs ls)
    (isDigit : c.isDigit = true) :
    Reads ('\x7b' :: c :: '\x7d' :: cs) (Lexeme.bracedDigit c ++ ls) := by
  have closed : Reads ('\x7d' :: cs) (mark (.closing .curly) ['\x7d'] :: ls) :=
    .cons (.mark rfl (by simp)) ⟨_, rfl⟩ h
  have digit : Starts (number [c]) (c :: '\x7d' :: cs) ('\x7d' :: cs) :=
    .integer (by simp) (by simpa using isDigit) (by simp)
  exact .cons (.mark rfl (by simp)) ⟨_, rfl⟩ (.cons digit ⟨_, rfl⟩ closed)

end Lexeme

def Token.bracedDigit (p : Nat) (c : Char) : List Token :=
  [⟨.opening .curly, "\x7b", p, p + 1⟩, ⟨.number, c.toString, p + 1, p + 2⟩,
    ⟨.closing .curly, "\x7d", p + 2, p + 3⟩]

theorem Lexeme.tokensFrom_bracedDigit {c : Char} (isDigit : c.isDigit = true) (p : Nat)
    (ls : List Lexeme) :
    tokensFrom p (bracedDigit c ++ ls) = Token.bracedDigit p c ++ tokensFrom (p + 3) ls := by
  have size : c.utf8Size = 1 := Text.utf8Size_of_isDigit isDigit
  have sizes : '\x7b'.utf8Size = 1 ∧ '\x7d'.utf8Size = 1 := by decide
  have texts : String.ofList [c] = c.toString := rfl
  simp [bracedDigit, tokensFrom, Lexeme.tokens, meaning, Except.map, Except.toOption, text,
    Text.size, size, sizes, texts, Token.bracedDigit]

namespace Grammar

open Cursor (Alike AlikeFrom)

variable {digit : Char} {others : List Char} {behind behind' : List Token} {p stop stop' : Nat}

/-- The rest of a number does not touch what stands in front of it until it loses
another digit, and behind braces it then does not either. -/
theorem alike_rest (h : AlikeFrom [] 0 (some stop) behind (some stop') behind') {q : Nat}
    (hq : q ≤ p) (limit limit' : Nat) :
    Alike [] 1 ⟨⟨.number, String.ofList others, p + 1, stop⟩ :: behind, some q, limit⟩
      ⟨⟨.number, String.ofList others, p + 3, stop'⟩ :: behind', some (p + 3), limit'⟩ :=
  .cons rfl rfl (fun i hi => by simp; omega) h

def bracing (isDigit : digit.isDigit = true) (nonempty : others ≠ [])
    (h : AlikeFrom [] 0 (some stop) behind (some stop') behind') : Splice where
  left := ⟨.number, String.ofList (digit :: others), p, stop⟩ :: behind
  right := Token.bracedDigit p digit ++ ⟨.number, String.ofList others, p + 3, stop'⟩ :: behind'
  bound := p
  scripts hq := .split (Cursor.takeDigit_eq_some.2 (.more rfl rfl (by simp) isDigit nonempty))
    ⟨rfl, rfl, rfl, rfl, rfl⟩ ⟨alike_rest h hq _ _, by simp⟩

def unbracing (isDigit : digit.isDigit = true) (nonempty : others ≠ [])
    (h : AlikeFrom [] 0 (some stop) behind (some stop') behind') : Splice where
  left := Token.bracedDigit p digit ++ ⟨.number, String.ofList others, p + 3, stop'⟩ :: behind'
  right := ⟨.number, String.ofList (digit :: others), p, stop⟩ :: behind
  bound := p
  scripts hq := .join ⟨rfl, rfl, rfl, rfl, rfl⟩
    (Cursor.takeDigit_eq_some.2 (.more rfl rfl (by simp) isDigit nonempty))
    ⟨(alike_rest h hq _ _).symm, Nat.le_add_right (behind'.length + 1) 3⟩

end Grammar

open Cursor (AlikeFrom)
open Lexeme (Reads row tokensFrom)

theorem Token.exists_number {w r v : String} {digit : Char} {front behind : List Token}
    {number : Token} (hlex : lex (w ++ digit.toString ++ r ++ v) = .ok (front ++ number :: behind))
    (hkind : number.kind = .number) (hstart : number.start = Text.size w.toList)
    (isDigit : digit.isDigit = true) (digits : ∀ c ∈ r.toList, c.isDigit = true)
    (nonempty : r ≠ "") :
    ∃ ms others ns, Reads w.toList ms ∧ Reads (r.toList ++ v.toList) (.number others :: ns) ∧
      others ≠ [] ∧ tokensFrom 0 ms = front ∧ tokensFrom number.stop ns = behind ∧
      number = ⟨.number, String.ofList (digit :: others), number.start, number.stop⟩ := by
  obtain ⟨ls, hls, htokens⟩ := lexFrom_eq_ok.1 hlex
  obtain ⟨ms, l, ns, rfl, hfront, hbehind, hplace, hstop, hl⟩ :=
    Answer.exists_lexeme hls.legal htokens.symm
  rw [Nat.zero_add] at hplace
  rw [Nat.zero_add, ← hplace, ← hstop] at hbehind
  have source : row ms ++ row (l :: ns) = w.toList ++ digit :: (r.toList ++ v.toList) := by
    rw [← Lexeme.row_append, ← hls.text]
    simp [Char.toString]
  obtain ⟨hw, hrest⟩ := Text.append_inj_of_size source (hplace.symm.trans hstart)
  have suffix : Reads (row (l :: ns)) (l :: ns) := hls.of_suffix
  rw [hrest] at suffix
  cases suffix with
  | cons starts legal more =>
    obtain ⟨ds, rfl, -⟩ | other := Lexeme.literal_or_lettered starts (hl 0)
    · obtain ⟨others, rfl, hothers, starts'⟩ :=
        starts.tail_of_number isDigit digits (by simpa using nonempty)
      have text : number.text = String.ofList (digit :: others) := by
        have := hl 0
        simp only [Lexeme.tokens, Lexeme.meaning, Except.map, Lexeme.text, Except.ok.injEq,
          List.cons.injEq, Token.mk.injEq] at this
        exact this.1.2.1.symm
      refine ⟨ms, others, ns, hw ▸ hls.of_prefix, .cons starts' ⟨_, rfl⟩ more, hothers, hfront,
        hbehind, ?_⟩
      rw [← hkind, ← text]
    · exact absurd hkind (other _ List.mem_cons_self).1

theorem Token.lex_bracedDigit {w r v : String} {digit : Char} {front behind : List Token}
    {number : Token} (hlex : lex (w ++ digit.toString ++ r ++ v) = .ok (front ++ number :: behind))
    (hkind : number.kind = .number) (hstart : number.start = Text.size w.toList)
    (isDigit : digit.isDigit = true) (digits : ∀ c ∈ r.toList, c.isDigit = true)
    (nonempty : r ≠ "") :
    ∃ others stop stop' behind', others ≠ [] ∧
      number = ⟨.number, String.ofList (digit :: others), number.start, stop⟩ ∧
      (∀ t ∈ front, t.stop ≤ number.start) ∧
      AlikeFrom [] 0 (some stop) behind (some stop') behind' ∧
      lex (w ++ "\x7b" ++ digit.toString ++ "\x7d" ++ r ++ v) = .ok (front ++
        (bracedDigit number.start digit ++
          ⟨.number, String.ofList others, number.start + 3, stop'⟩ :: behind')) := by
  have bounded : ∀ t ∈ front, t.stop ≤ number.start := by
    obtain ⟨ls, hls, htokens⟩ := lexFrom_eq_ok.1 hlex
    have ordered := (Answer.ordered_tokensFrom hls.legal 0).1
    rw [← htokens] at ordered
    exact fun t ht => (List.pairwise_append.1 ordered).2.2 t ht number List.mem_cons_self
  obtain ⟨ms, others, ns, hms, hrest, hothers, rfl, rfl, hnumber⟩ :=
    exists_number hlex hkind hstart isDigit digits nonempty
  let stop' := number.start + 3 + Text.size others
  refine ⟨others, number.stop, stop', tokensFrom stop' ns, hothers, hnumber, bounded, ?_, ?_⟩
  · have places : Lexeme.StopsAlike (some number.stop) (some stop') number.stop stop' :=
      .inl ⟨rfl, rfl⟩
    have alike := Lexeme.alikeFrom_tokensFrom hrest.rest [] places
    rwa [List.append_nil] at alike
  · have source : (w ++ "\x7b" ++ digit.toString ++ "\x7d" ++ r ++ v).toList =
        w.toList ++ '\x7b' :: digit :: '\x7d' :: (r.toList ++ v.toList) := by
      simp [Char.toString]
    have hsize : Text.size (row ms) = number.start := by rw [hstart, hms.text]
    -- The opening brace cannot join the lexeme in front of it.
    have hall := hms.append_apart (hrest.bracedDigit isDigit) (by rintro c ⟨⟩; decide)
    rw [lex, source]
    refine lexFrom_eq_ok.2 ⟨_, hall, ?_⟩
    rw [Lexeme.tokensFrom_append, Lexeme.tokensFrom_bracedDigit isDigit, Nat.zero_add, hsize]
    rfl

namespace Formula

open Grammar (ArgumentFrom HasArgument OpenAt RunsTo ScriptPlace)

/-- The first digit of a number behind a script mark may stand in braces, unless
it ends the subscript of a symbol where an argument without brackets is still open:
what is left of the number is flush with the braces, but not with the digit. -/
theorem ofTokens_bracedDigit {declared : List String} {w r v : String} {digit : Char}
    {front behind : List Token} {number : Token} {limit : Nat} (limit' : Nat)
    (hlex : Token.lex (w ++ digit.toString ++ r ++ v) = .ok (front ++ number :: behind))
    (hkind : number.kind = .number) (hstart : number.start = Text.size w.toList)
    (isDigit : digit.isDigit = true) (digits : ∀ c ∈ r.toList, c.isDigit = true)
    (nonempty : r ≠ "") (place : ScriptPlace front)
    (shut : ¬HasArgument declared (OpenAt (number :: behind))
      (Cursor.start (front ++ number :: behind) limit)) :
    ∃ tokens, Token.lex (w ++ "\x7b" ++ digit.toString ++ "\x7d" ++ r ++ v) = .ok tokens ∧
      ∀ x, ofTokens declared (front ++ number :: behind) limit = .ok x ↔
        ofTokens declared tokens limit' = .ok x := by
  obtain ⟨others, stop, stop', behind', hothers, hnumber, bounded, alike, hbraced⟩ :=
    Token.lex_bracedDigit hlex hkind hstart isDigit digits nonempty
  generalize number.start = p at hnumber bounded
  subst hnumber
  refine ⟨_, hbraced, fun x => ⟨fun hx => ?_, fun hx => ?_⟩⟩
  · exact ofTokens_of_splice (Grammar.bracing isDigit hothers alike) place bounded
      (fun h => shut h.1) hx
  · exact ofTokens_of_splice (Grammar.unbracing isDigit hothers alike) place bounded
      (fun h => shut h.2) hx

/-- A subscript behind an argument that has ended. -/
theorem ofTokens_bracedDigit_after_sine : ∃ tokens,
    Token.lex "\\sin x+x_\x7b1\x7d2" = .ok tokens ∧ ofTokens ["x"] tokens 13 =
      .ok (.binary .add (.apply .sin [.symbol "x"] false)
        (.juxtaposed .numberOrSymbol (.symbol "x_1") (.number "2"))) := by
  let argument : List Token := [⟨.symbol, "x", 5, 6⟩, ⟨.plus, "+", 6, 7⟩, ⟨.symbol, "x", 7, 8⟩,
    ⟨.underscore, "_", 8, 9⟩]
  let front : List Token := ⟨.function .sin, "\\sin", 0, 4⟩ :: argument
  let number : Token := ⟨.number, "12", 9, 11⟩
  have hlex : Token.lex ("\\sin x+x_" ++ '1'.toString ++ "2" ++ "") = .ok (front ++ [number]) := by
    rfl
  have place : 9 = Text.size "\\sin x+x_".toList := by rfl
  have braced : "\\sin x+x_" ++ "\x7b" ++ '1'.toString ++ "\x7d" ++ "2" ++ "" =
      "\\sin x+x_\x7b1\x7d2" := by rfl
  have ended : ¬RunsTo [number] ⟨argument ++ [number], some 4, 11⟩ := by
    intro h
    cases h with
    | here tokens => exact absurd (congrArg List.length tokens) (by simp [argument])
    | factor first _ more =>
      cases first with
      | number here | infinity here => cases here
      | name read =>
        cases read
        -- The argument has ended at the sign.
        exact absurd more.kind (by decide)
  have shut : ¬HasArgument ["x"] (OpenAt [number]) (Cursor.start (front ++ [number]) 11) := by
    intro h
    obtain ⟨f, first, -, behind, isOpen⟩ :
        ∃ f first, Token.Kind.function .sin = .function f ∧
          ArgumentFrom ["x"] f ⟨argument ++ [number], some 4, 11⟩ first ∧
          OpenAt [number] first := by
      simpa [front, argument, number, Cursor.start, Grammar.hasArgument_cons,
        Grammar.hasArgument_nil] using h
    obtain rfl := behind.eq_of_unmarked (by decide) (by decide)
    cases isOpen with
    | sign sign => cases sign
    | run h => exact ended h
  obtain ⟨tokens, hbraced, same⟩ := ofTokens_bracedDigit 13 hlex rfl place
    (by rfl) (by simp) (by simp) (.later (.later (.later (.later (.mark rfl))))) shut
  rw [braced] at hbraced
  have whole : ofTokens ["x"] (front ++ [number]) 11 =
      .ok (.binary .add (.apply .sin [.symbol "x"] false)
        (.juxtaposed .numberOrSymbol (.symbol "x_1") (.number "2"))) := by
    simp only [front, argument, number, List.cons_append, List.nil_append]
    rfl
  exact ⟨tokens, hbraced, (same _).1 whole⟩

/-- A subscript in an argument without brackets. -/
theorem ofTokens_bracedDigit_bare_sine :
    let front : List Token := [⟨.function .sin, "\\sin", 0, 4⟩, ⟨.symbol, "x", 5, 6⟩,
      ⟨.underscore, "_", 6, 7⟩]
    Token.lex "\\sin x_12" = .ok (front ++ [⟨.number, "12", 7, 9⟩]) ∧ ScriptPlace front ∧
      ofTokens [] (front ++ [⟨.number, "12", 7, 9⟩]) 9 =
        .ok (.juxtaposed .bareFunction (.apply .sin [.symbol "x_1"] false) (.number "2")) ∧
      ∃ tokens, Token.lex "\\sin x_\x7b1\x7d2" = .ok tokens ∧ ofTokens [] tokens 11 =
        .ok (.apply .sin [.juxtaposed .numberOrSymbol (.symbol "x_1") (.number "2")] false) :=
  ⟨by rfl, .later (.later (.mark rfl)), by rfl, _, by rfl, by rfl⟩

end Formula

end AnswerKey

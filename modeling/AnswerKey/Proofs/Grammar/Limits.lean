import AnswerKey.Proofs.Grammar.Appending

/-! Limits and the side that stands behind their target. -/
namespace AnswerKey

namespace Grammar

theorem TermEnds.nil {mode : Mode} : TermEnds [] mode := ⟨⟨nofun, nofun⟩, nofun⟩

theorem Closes.nil (x : Formula) : Closes [] x := fun _ _ _ => nofun

theorem Mode.Fits.target : Mode.plain.Fits { limitTarget := true } := ⟨rfl, rfl, nofun⟩

inductive SideTokens : List Token → Option Side → Prop
  | none : SideTokens [] none
  | bare {sign : Token} {s : Side} (hs : sign.kind = sideMark s) : SideTokens [sign] (some s)
  | raised {caret sign : Token} {s : Side} (hc : caret.kind = .caret)
      (hs : sign.kind = sideMark s) : SideTokens [caret, sign] (some s)
  | braced {caret opened sign closed : Token} {s : Side} (hc : caret.kind = .caret)
      (ho : opened.kind = .opening .curly) (hs : sign.kind = sideMark s)
      (hclosed : closed.kind = .closing .curly) :
      SideTokens [caret, opened, sign, closed] (some s)

namespace SideTokens

variable {ts rest : List Token} {s : Option Side} {closed : Token}

theorem trailing (h : SideTokens ts s) (hclosed : closed.kind = .closing .curly) :
    ∀ t ∈ (ts ++ closed :: rest).head?, t.kind.isTrailing = true := by
  rintro t ht
  cases h with
  | none =>
    obtain rfl : closed = t := by simpa using ht
    simp [hclosed, Token.Kind.isTrailing]
  | @bare sign s hs =>
    obtain rfl : sign = t := by simpa using ht
    cases s <;> simp [hs, sideMark, Token.Kind.isTrailing]
  | @raised caret _ _ hc | @braced caret _ _ _ _ hc =>
    obtain rfl : caret = t := by simpa using ht
    simp [hc, Token.Kind.isTrailing]

theorem sumEnds (h : SideTokens ts s) (hclosed : closed.kind = .closing .curly) :
    SumEnds (ts ++ closed :: rest) { limitTarget := true } := by
  cases h with
  | none =>
    simp [SumEnds, TermEnds, FactorEnds, Cursor.start, Cursor.kind, Cursor.kindAt, hclosed, isSign]
  | @bare sign s hs =>
    cases s <;> simp [SumEnds, TermEnds, FactorEnds, Cursor.start, Cursor.kind, Cursor.kindAt, hs,
      sideMark, hclosed]
  | @raised caret sign s hc hs =>
    cases s <;> simp [SumEnds, TermEnds, FactorEnds, Cursor.start, Cursor.kind, Cursor.kindAt, hc,
      hs, sideMark, hclosed, isSign, sideFollows]
  | @braced caret opened sign closed s hc ho hs hclosed =>
    cases s <;> simp [SumEnds, TermEnds, FactorEnds, Cursor.start, Cursor.kind, Cursor.kindAt, hc,
      hs, ho, sideMark, hclosed, isSign, sideFollows]

theorem closes (h : SideTokens ts s) (hclosed : closed.kind = .closing .curly) (a : Formula) :
    Closes (ts ++ closed :: rest) a := by
  intro y _ _
  cases h with
  | none => simp [Cursor.start, Cursor.kind, Cursor.kindAt, hclosed]
  | @bare sign s hs => cases s <;> simp [Cursor.start, Cursor.kind, Cursor.kindAt, hs, sideMark]
  | @raised caret _ _ hc | @braced caret _ _ _ _ hc =>
    simp [Cursor.start, Cursor.kind, Cursor.kindAt, hc]

theorem leavesCaret {declared : List String} {c : Cursor} (hclosed : closed.kind = .closing .curly)
    (hfree : ∀ t ∈ ts.head?, t.kind = .caret → ¬HasArgument declared (TakesAll declared) c) :
    LeavesCaret declared (ts ++ closed :: rest) c := by
  intro caret
  cases ts with
  | nil => simp [Cursor.start, Cursor.kind, Cursor.kindAt, hclosed] at caret
  | cons t ts => exact hfree t rfl (Option.some.inj caret)

theorem side (h : SideTokens ts s) (hclosed : closed.kind = .closing .curly) {c : Cursor}
    (hc : c.tokens = ts ++ closed :: rest) :
    ∃ c', Grammar.side c = .ok (s, c') ∧ c'.tokens = closed :: rest := by
  obtain ⟨_, p, limit⟩ := c
  obtain rfl : _ = ts ++ closed :: rest := hc
  cases h with
  | none =>
    refine ⟨_, side_eq_ok.2 (.absent ?_ fun _ s => ?_), rfl⟩
    · simp [Cursor.kind, Cursor.kindAt, hclosed]
    · cases s <;> simp [Cursor.kind, Cursor.kindAt, hclosed, sideMark]
  | bare hs =>
    exact ⟨_, side_eq_ok.2 (.bare (Cursor.kind_eq_some.2 ⟨_, _, rfl, hs⟩)
      (by simp [Cursor.kindAt, hclosed])), rfl⟩
  | raised hk hs =>
    exact ⟨_, side_eq_ok.2 (.raised (Cursor.kind_eq_some.2 ⟨_, _, rfl, hk⟩)
      (Cursor.kind_eq_some.2 ⟨_, _, rfl, hs⟩)), rfl⟩
  | braced hk ho hs hclosed =>
    exact ⟨_, side_eq_ok.2 (.braced (Cursor.kind_eq_some.2 ⟨_, _, rfl, hk⟩)
      (Cursor.kind_eq_some.2 ⟨_, _, rfl, ho⟩) (Cursor.kind_eq_some.2 ⟨_, _, rfl, hs⟩)
      (Cursor.kind_eq_some.2 ⟨_, _, rfl, hclosed⟩)), rfl⟩

end SideTokens

end Grammar

namespace Formula

open Grammar (HasArgument SideTokens TakesAll WritesName)

variable {declared : List String}

/-- A limit is read with its target, its body and its side, whatever stands in
them. A side behind a caret only needs that no argument without brackets ends the
target: such an argument takes the caret for an exponent of its own. -/
theorem ofTokens_limit {V A D B : List Token} {sign mark opened arrow closed : Token}
    {name : String} {a b : Formula} {s : Option Side} {k m : Nat} (limit : Nat)
    (hsign : sign.kind = .lim) (hmark : mark.kind = .underscore)
    (hopened : opened.kind = .opening .curly) (hname : WritesName V name)
    (harrow : arrow.kind = .to) (htarget : ofTokens declared A k = .ok a)
    (ha : a.isRelation = false) (hside : SideTokens D s)
    (hfree : ∀ t ∈ D.head?, t.kind = .caret →
      ¬HasArgument declared (TakesAll declared) (Cursor.start A k))
    (hclosed : closed.kind = .closing .curly) (hbody : ofTokens declared B m = .ok b)
    (hb : b.isRelation = false) (hterm : b.isSum = false) :
    ofTokens declared (sign :: mark :: opened :: (V ++ arrow :: (A ++ (D ++ closed :: B)))) limit =
      .ok (.limit name a s b) := by
  have arrowTrailing : ∀ t ∈ (arrow :: (A ++ (D ++ closed :: B))).head?,
      t.kind.isTrailing = true := by simp [harrow, Token.Kind.isTrailing]
  obtain ⟨c₁, named, hc₁⟩ := Grammar.symbolName_append arrowTrailing (by simp [harrow]) hname
    (some opened.stop) limit
  obtain ⟨c₂, target, hc₂⟩ := Grammar.sum_append (hside.trailing hclosed) htarget ha .target
    (hside.sumEnds hclosed) (hside.closes hclosed a) (SideTokens.leavesCaret hclosed hfree)
    (some arrow.stop) c₁.limit
  obtain ⟨c₃, side, hc₃⟩ := hside.side hclosed hc₂
  obtain ⟨last, body, hlast⟩ := Grammar.signedTerm_append (by simp) hbody hb hterm (.refl _)
    .nil (.nil b) (.of_other (by simp)) (some closed.stop) c₃.limit
  rw [List.append_nil] at body
  refine Grammar.ofTokens_of_atom (Grammar.atom_eq_ok.2 (.limit ?_ (Grammar.limit_eq_ok.2
    ⟨name, c₁, a, c₂, s, c₃, b, ?_, ?_, ?_, ?_, ?_, side, ?_, ?_, rfl⟩))) hlast
  · exact Cursor.kind_eq_some.2 ⟨_, _, rfl, hsign⟩
  · exact Cursor.kind_eq_some.2 ⟨_, _, rfl, hmark⟩
  · exact Cursor.kind_eq_some.2 ⟨_, _, rfl, hopened⟩
  · exact named
  · exact Cursor.kind_eq_some.2 ⟨_, _, hc₁, harrow⟩
  · rw [Cursor.next_of_cons hc₁]
    exact target
  · exact Cursor.kind_eq_some.2 ⟨_, _, hc₃, hclosed⟩
  · rw [Cursor.next_of_cons hc₃]
    exact body

/-- A caret for the side may stand behind an argument in brackets. -/
theorem ofTokens_limit_sine_in_brackets : ∃ tokens,
    Token.lex "\\lim_\x7bx \\to \\sin^2(x)^+\x7d x" = .ok tokens ∧ ofTokens ["x"] tokens 26 =
      .ok (.limit "x" (.powered .sin (.number "2") [.symbol "x"]) (some .above) (.symbol "x")) := by
  let argument : List Token := [⟨.opening .round, "(", 18, 19⟩, ⟨.symbol, "x", 19, 20⟩,
    ⟨.closing .round, ")", 20, 21⟩]
  let A : List Token := ⟨.function .sin, "\\sin", 12, 16⟩ :: ⟨.caret, "^", 16, 17⟩ ::
    ⟨.number, "2", 17, 18⟩ :: argument
  let D : List Token := [⟨.caret, "^", 21, 22⟩, ⟨.plus, "+", 22, 23⟩]
  let B : List Token := [⟨.symbol, "x", 25, 26⟩]
  let closed : Token := ⟨.closing .curly, "\x7d", 23, 24⟩
  have hfree : ¬HasArgument ["x"] (TakesAll ["x"]) (Cursor.start A 0) := by
    intro h
    obtain ⟨f, first, word, ⟨depth, base, middle, r, below, above⟩, unopened, -⟩ :
        ∃ f first, Token.Kind.function .sin = .function f ∧ Grammar.ArgumentFrom ["x"] f
          ⟨A.tail, some 16, 0⟩ first ∧ TakesAll ["x"] first := by
      simpa [A, argument, Cursor.start, Grammar.hasArgument_cons, Grammar.hasArgument_nil] using h
    obtain rfl := Token.Kind.function.inj word
    obtain ⟨-, rfl⟩ : base = none ∧ middle = ⟨A.tail, some 16, 0⟩ := by
      cases below
      exact ⟨rfl, rfl⟩
    obtain rfl : first = ⟨argument, some 18, 0⟩ := by
      cases depth <;> cases above
      rfl
    exact unopened .round (by decide) rfl
  refine ⟨⟨.lim, "\\lim", 0, 4⟩ :: ⟨.underscore, "_", 4, 5⟩ :: ⟨.opening .curly, "\x7b", 5, 6⟩ ::
    ([⟨.symbol, "x", 6, 7⟩] ++ ⟨.to, "\\to", 8, 11⟩ :: (A ++ (D ++ closed :: B))), by rfl, ?_⟩
  exact ofTokens_limit (k := 0) (m := 0) 26 rfl rfl rfl ⟨_, rfl, rfl⟩ rfl (by rfl) rfl
    (.raised (s := .above) rfl rfl) (fun _ _ _ => hfree) rfl (by rfl) rfl rfl

/-- A side behind a caret is lost to an argument without brackets. -/
theorem ofTokens_limit_bare_sine :
    let A : List Token := [⟨.function .sin, "\\sin", 12, 16⟩, ⟨.symbol, "x", 17, 18⟩]
    let D : List Token := [⟨.caret, "^", 18, 19⟩, ⟨.plus, "+", 19, 20⟩]
    let B : List Token := [⟨.symbol, "x", 22, 23⟩]
    let tokens : List Token := ⟨.lim, "\\lim", 0, 4⟩ :: ⟨.underscore, "_", 4, 5⟩ ::
      ⟨.opening .curly, "\x7b", 5, 6⟩ :: ([⟨.symbol, "x", 6, 7⟩] ++ ⟨.to, "\\to", 8, 11⟩ ::
        (A ++ (D ++ ⟨.closing .curly, "\x7d", 20, 21⟩ :: B)))
    Token.lex "\\lim_\x7bx \\to \\sin x^+\x7d x" = .ok tokens ∧
      ofTokens ["x"] A 17 = .ok (.apply .sin [.symbol "x"] false) ∧
      Grammar.SideTokens D (some .above) ∧ ofTokens ["x"] B 23 = .ok (.symbol "x") ∧
      ofTokens ["x"] tokens 23 = .error ⟨19, .exponent, .token "+"⟩ :=
  ⟨by rfl, by rfl, .raised (s := .above) rfl rfl, by rfl, by rfl⟩

end Formula

end AnswerKey

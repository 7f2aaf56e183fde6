import AnswerKey.Proofs.Grammar.Wording
import AnswerKey.Proofs.Token.Words

/-! The names and numbers of a formula that is read from symbols of letters and
numbers of figures: a name starts with a letter, a number has figures only. -/
namespace AnswerKey

namespace Formula

def HasSpelledHead : Formula → Prop
  | number digits => IsFigures digits
  | symbol name | call name _ | aggregate _ name _ _ _ | limit name _ _ _
  | differential (some name) _ => IsName name
  | _ => True

inductive Spelled : Formula → Prop
  | mk {f : Formula} (head : f.HasSpelledHead) (parts : ∀ g ∈ f.parts, g.Spelled) : Spelled f

variable {f g : Formula}

theorem Spelled.head (h : f.Spelled) : f.HasSpelledHead := by
  cases h with
  | mk head parts => exact head

theorem Spelled.of_mem_parts (h : f.Spelled) (hg : g ∈ f.parts) : g.Spelled := by
  cases h with
  | mk head parts => exact parts g hg

theorem spelled_number {digits : String} (h : IsFigures digits) : (number digits).Spelled :=
  .mk h (List.forall_mem_nil _)

theorem Worded.spelled (h : f.Worded IsFigures IsName) : f.Spelled := by
  induction h with
  | @mk f head parts ih =>
    refine .mk ?_ ih
    cases f with
    | differential name? => cases name? <;> exact head
    | _ => exact head

end Formula

namespace Grammar

theorem isWordChar_join {run : List Token} (h : ∀ t ∈ run, t.Lettered)
    (hrun : ∀ t ∈ run, isWordPart t = true) :
    ∀ c ∈ (String.join (run.map (·.text))).toList, isWordChar c = true := by
  induction run with
  | nil => simp
  | cons t run ih =>
    rw [List.forall_mem_cons] at h hrun
    rw [List.map_cons, String.join_cons, String.toList_append, List.forall_mem_append]
    refine ⟨fun c hc => ?_, ih h.2 hrun.2⟩
    have hkind : t.kind = .number ∨ t.kind = .symbol := by simpa [isWordPart] using hrun.1
    rcases hkind with hk | hk
    · exact isWordChar_of_isFigure (h.1.number hk c hc)
    · exact isWordChar_of_isAlpha ((h.1.symbol hk).2 c hc)

variable {c c' : Cursor} {name : String}

theorem isName_of_symbol (hc : c.All Token.Lettered) (here : c.kind = some .symbol) :
    IsName c.text := by
  obtain ⟨t, ht, hk, htext⟩ := hc.text here
  exact htext ▸ (ht.symbol hk).isName

theorem isWordChar_subscript (hc : c.All Token.Lettered) (h : SubscriptStep c name c') :
    ∀ d ∈ name.toList, isWordChar d = true := by
  cases h with
  | braced opened words joined =>
    subst words joined
    exact isWordChar_join (fun t ht => hc.next t ((List.takeWhile_sublist _).mem ht))
      fun t ht => List.mem_takeWhile_imp ht
  | digit taken =>
    cases Cursor.takeDigit_eq_some.1 taken with
    | last _ _ _ isDigit | more _ _ _ isDigit => simpa using isWordChar_of_isFigure (.inl isDigit)
  | symbol here => exact (isName_of_symbol hc here).isWordChar

theorem isName_of_symbolName (hc : c.All Token.Lettered) (h : symbolName c = .ok (name, c')) :
    IsName name := by
  cases symbolName_eq_ok.1 h with
  | plain here _ => exact isName_of_symbol hc here
  | subscripted here _ below =>
    exact ((isName_of_symbol hc here).append (by simp [isWordChar])).append
      (isWordChar_subscript hc.next.next below)

end Grammar

theorem Token.yields_lettered : Token.Yields Token.Lettered IsFigures IsName where
  number ht kind := ht.number kind
  digit _ _ _ isDigit := by simpa [IsFigures, Decimal.IsFigure] using Or.inl isDigit
  left ht kind text _ _ := by
    have hfigures := ht.number kind
    rw [IsFigures, text, List.forall_mem_cons] at hfigures
    exact ⟨by simp [kind], fun _ => by simpa [IsFigures] using hfigures.2⟩
  symbol ht kind := (ht.symbol kind).isName
  name := Grammar.isName_of_symbolName

theorem Formula.spelled_of_ofTokens {declared : List String} {tokens : List Token} {limit : Nat}
    {x : Formula} (ht : ∀ t ∈ tokens, t.Lettered)
    (h : Formula.ofTokens declared tokens limit = .ok x) : x.Spelled :=
  (Formula.worded_of_ofTokens Token.yields_lettered ht h).spelled

end AnswerKey

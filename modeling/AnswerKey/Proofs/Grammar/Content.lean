import AnswerKey.Proofs.Grammar.Passage

/-! The characters that a formula has from its tokens, and how a reading takes
them from the tokens that it steps over. -/
namespace AnswerKey

def Builtin.isInverse : Builtin → Bool
  | asin | acos | atan | asec | acsc | acot
  | asinh | acosh | atanh | asech | acsch | acoth => true
  | _ => false

theorem Builtin.isInverse_of_inverse? {f f' : Builtin} (h : f.inverse? = some f') :
    f'.isInverse = true := by
  cases f <;> simp_all [inverse?] <;> subst h <;> rfl

/-- Characters of texts, and a count of the inverse functions that are applied. -/
structure Content where
  characters : List Char
  inverses : Nat

namespace Content

instance : EmptyCollection Content := ⟨⟨[], 0⟩⟩

instance : Append Content :=
  ⟨fun a b => ⟨a.characters ++ b.characters, a.inverses + b.inverses⟩⟩

def ofText (s : String) : Content := ⟨s.toList, 0⟩

def ofFunction (f : Builtin) : Content := ⟨[], if f.isInverse then 1 else 0⟩

variable (a b c : Content)

@[simp] theorem characters_append : (a ++ b).characters = a.characters ++ b.characters := rfl

@[simp] theorem inverses_append : (a ++ b).inverses = a.inverses + b.inverses := rfl

@[simp] theorem append_empty : a ++ (∅ : Content) = a := by
  change Content.mk (a.characters ++ []) (a.inverses + 0) = a
  rw [List.append_nil, Nat.add_zero]

@[simp] theorem empty_append : (∅ : Content) ++ a = a := by
  change Content.mk ([] ++ a.characters) (0 + a.inverses) = a
  rw [List.nil_append, Nat.zero_add]

theorem append_assoc : a ++ b ++ c = a ++ (b ++ c) := by
  change Content.mk (a.characters ++ b.characters ++ c.characters)
    (a.inverses + b.inverses + c.inverses) = _
  rw [List.append_assoc, Nat.add_assoc]
  rfl

theorem ofText_append (s t : String) : ofText (s ++ t) = ofText s ++ ofText t := by
  change Content.mk (s ++ t).toList 0 = Content.mk (s.toList ++ t.toList) (0 + 0)
  rw [String.toList_append]

theorem ofFunction_of_not_inverse {f : Builtin} (h : f.isInverse = false) : ofFunction f = ∅ := by
  simp only [ofFunction, h, Bool.false_eq_true, if_false]
  rfl

end Content

namespace Formula

open Content (ofText ofFunction)

mutual

@[simp] def content : Formula → Content
  | number digits => ofText digits
  | symbol name => ofText name
  | infinity => ∅
  | binary _ l r | juxtaposed _ l r | power l r | fraction l r | binomial l r
  | relation _ l r => content l ++ content r
  | negated x | dagger x | group x | factorial x | primed x => content x
  | root index x => contentOption index ++ content x
  | apply f args _ => ofFunction f ++ contentAll args
  | call name args => ofText name ++ contentAll args
  | powered _ e args => content e ++ contentAll args
  | differential (some name) _ => ofText name
  | differential none _ => ∅
  | aggregate _ name lower upper body =>
    ofText name ++ content lower ++ content upper ++ content body
  | integral lower upper body => contentOption lower ++ contentOption upper ++ content body
  | limit name approach _ body => ofText name ++ content approach ++ content body

@[simp] def contentAll : List Formula → Content
  | [] => ∅
  | x :: rest => content x ++ contentAll rest

@[simp] def contentOption : Option Formula → Content
  | none => ∅
  | some x => content x

end

end Formula

open Content (ofText ofFunction)

namespace Token

def Kind.isWord : Kind → Bool
  | .number | .symbol => true
  | _ => false

def characters (t : Token) : List Char := if t.kind.isWord then t.text.toList else []

def charactersAll (ts : List Token) : List Char := ts.flatMap characters

def underscores (ts : List Token) : Nat := ts.countP fun t => t.kind = .underscore

end Token

namespace Cursor

/-- From one place to another the tokens have this content. An underscore may be
put before a subscript, and of the characters `1` as many may be missing as
inverse functions are applied. -/
def Takes (c c' : Cursor) (a : Content) : Prop :=
  ∃ inserted missing, missing ≤ a.inverses ∧
    inserted + Token.underscores c'.tokens ≤ Token.underscores c.tokens ∧
    (Token.charactersAll c.tokens ++ .replicate inserted '_').Perm
      (a.characters ++ .replicate missing '1' ++ Token.charactersAll c'.tokens)

namespace Takes

variable {c middle c' : Cursor} {k : Token.Kind} {a b : Content}

theorem refl (c : Cursor) : Takes c c ∅ :=
  ⟨0, 0, Nat.le_refl 0, by simp, by simp [EmptyCollection.emptyCollection]⟩

theorem trans (h : Takes c middle a) (h' : Takes middle c' b) : Takes c c' (a ++ b) := by
  obtain ⟨i, m, hm, hi, h⟩ := h
  obtain ⟨j, n, hn, hj, h'⟩ := h'
  refine ⟨i + j, m + n, Nat.add_le_add hm hn, by omega, List.perm_iff_count.2 fun x => ?_⟩
  have hcount := h.count_eq x
  have hcount' := h'.count_eq x
  simp only [← List.replicate_append_replicate, List.count_append,
    Content.characters_append] at hcount hcount' ⊢
  omega

theorem perm (h : Takes c c' a) (hp : a.characters.Perm b.characters)
    (hn : a.inverses = b.inverses) : Takes c c' b := by
  obtain ⟨i, m, hm, hi, h⟩ := h
  exact ⟨i, m, hn ▸ hm, hi, h.trans ((hp.append_right _).append_right _)⟩

theorem swap (h : Takes c c' (a ++ b)) : Takes c c' (b ++ a) :=
  h.perm List.perm_append_comm (Nat.add_comm _ _)

theorem spare (c : Cursor) (f : Builtin) : Takes c c (ofFunction f) :=
  ⟨0, 0, Nat.zero_le _, by simp, by simp [ofFunction]⟩

/-- The character `1` of an exponent is left out for the inverse function. -/
theorem leave_one {f : Builtin} (h : Takes c c' (ofText "1")) (hf : f.isInverse = true) :
    Takes c c' (ofFunction f) := by
  obtain ⟨i, m, hm, hi, h⟩ := h
  obtain rfl : m = 0 := Nat.le_zero.1 hm
  refine ⟨i, 1, by simp [ofFunction, hf], hi, ?_⟩
  simpa [ofText, ofFunction] using h

theorem of_tokens {t : Token} {rest : List Token} (h : c.tokens = t :: rest) :
    Takes c c.next ⟨t.characters, 0⟩ := by
  refine ⟨0, 0, Nat.le_refl 0, ?_, ?_⟩
  · simp [Cursor.next, h, Token.underscores, List.countP_cons]
  · simp [Cursor.next, h, Token.charactersAll]

theorem word (here : c.kind = some k) (h : k.isWord = true) :
    Takes c c.next (ofText c.text) := by
  obtain ⟨t, rest, ht, rfl⟩ := kind_eq_some.1 here
  have htaken := of_tokens ht
  rw [Token.characters, if_pos h] at htaken
  simpa [ofText, text, ht] using htaken

theorem mark (here : c.kind = some k) (h : k.isWord = false) : Takes c c.next ∅ := by
  obtain ⟨t, rest, ht, rfl⟩ := kind_eq_some.1 here
  have htaken := of_tokens ht
  rwa [Token.characters, if_neg (by simp [h])] at htaken

theorem step (here : c.kind = some k) (h : k.isWord = false) (rest : Takes c.next c' a) :
    Takes c c' a := by
  simpa using (mark here h).trans rest

theorem closed (h : Takes c middle a) (here : middle.kind = some k) (hk : k.isWord = false) :
    Takes c middle.next a := by
  simpa using h.trans (mark here hk)

theorem underscore (here : c.kind = some .underscore) : Takes c c.next (ofText "_") := by
  obtain ⟨t, rest, ht, hk⟩ := kind_eq_some.1 here
  refine ⟨1, 0, Nat.le_refl 0, ?_, ?_⟩
  · simp [Cursor.next, ht, Token.underscores, hk, Nat.add_comm]
  · have hcharacters : t.characters = [] := by simp [Token.characters, hk, Token.Kind.isWord]
    simp only [Cursor.next, ht, Token.charactersAll, List.flatMap_cons, hcharacters]
    exact List.perm_append_comm

theorem digit {digit : String} (taken : c.takeDigit? = some (digit, c')) :
    Takes c c' (ofText digit) := by
  have here := kind_of_takeDigit taken
  obtain ⟨t, rest, ht, hk⟩ := kind_eq_some.1 here
  simp only [takeDigit?, ht, hk, if_true] at taken
  split at taken
  · cases taken
  · next d others htext =>
    split at taken
    · split at taken
      · next hlast =>
        cases taken
        have hword := word here rfl
        simpa [ofText, text, ht, htext, hlast] using hword
      · cases taken
        refine ⟨0, 0, Nat.le_refl 0, ?_, ?_⟩
        · simp [Token.underscores, ht, hk]
        · simp [Token.charactersAll, Token.characters, ht, hk, htext, ofText, Token.Kind.isWord]
    · cases taken

end Takes

end Cursor

namespace Grammar

open Cursor (Takes)

variable {c c' : Cursor} {name : String}

theorem takes_words (c : Cursor) :
    Takes c (c.skip (c.tokens.takeWhile isWordPart).length)
      (ofText (String.join ((c.tokens.takeWhile isWordPart).map (·.text)))) := by
  obtain ⟨tokens, stop, limit⟩ := c
  induction tokens generalizing stop with
  | nil => exact .refl _
  | cons t rest ih =>
    by_cases ht : isWordPart t
    · have hk : t.kind.isWord = true := by
        simp only [isWordPart, Bool.or_eq_true, decide_eq_true_eq] at ht
        rcases ht with hk | hk <;> simp [hk, Token.Kind.isWord]
      have hword : Takes ⟨t :: rest, stop, limit⟩ ⟨rest, some t.stop, limit⟩ (ofText t.text) :=
        .word rfl hk
      rw [List.takeWhile_cons_of_pos ht, List.length_cons, List.map_cons, String.join_cons,
        Content.ofText_append]
      exact hword.trans (ih (some t.stop))
    · rw [List.takeWhile_cons_of_neg ht]
      exact .refl _

theorem takes_subscript (h : subscript c = .ok (name, c')) : Takes c c' (ofText name) := by
  cases subscript_eq_ok.1 h with
  | braced opened words joined _ stop closed =>
    subst words joined stop
    exact .step opened rfl ((takes_words _).closed closed rfl)
  | digit taken => exact .digit taken
  | symbol here => exact .word here rfl

theorem takes_symbolName (h : symbolName c = .ok (name, c')) : Takes c c' (ofText name) := by
  cases symbolName_eq_ok.1 h with
  | plain here _ => exact .word here rfl
  | subscripted here mark below =>
    have hbelow := takes_subscript (subscript_eq_ok.2 below)
    rw [Content.ofText_append, Content.ofText_append, Content.append_assoc]
    exact (Takes.word here rfl).trans ((Takes.underscore mark).trans hbelow)

end Grammar

end AnswerKey

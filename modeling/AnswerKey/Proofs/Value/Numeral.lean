import AnswerKey.Value.Text
import AnswerKey.Proofs.Value.Plain

/-! What a text that is read as a number is made of: an optional sign, digits
with a point or a word, and an optional exponent. -/
namespace AnswerKey

namespace Text

def Visible (cs : List Char) : Prop := ∀ c ∈ cs, isBlank c = false

@[simp] theorem visible_cons {c : Char} {cs : List Char} :
    Visible (c :: cs) ↔ isBlank c = false ∧ Visible cs := List.forall_mem_cons

@[simp] theorem visible_append {a b : List Char} : Visible (a ++ b) ↔ Visible a ∧ Visible b :=
  List.forall_mem_append

theorem dropWhile_of_visible {cs : List Char} (h : Visible cs) : cs.dropWhile isBlank = cs := by
  cases cs with
  | nil => rfl
  | cons c cs => simp [List.dropWhile, (visible_cons.1 h).1]

theorem trim_of_visible {cs : List Char} (h : Visible cs) : trim cs = cs := by
  have hreverse : Visible cs.reverse := fun c hc => h c (List.mem_reverse.1 hc)
  rw [trim, dropWhile_of_visible h, dropWhile_of_visible hreverse, List.reverse_reverse]

end Text

namespace Value

theorem visible_of_isSign {c : Char} (h : isSign c = true) : Text.isBlank c = false := by
  simp only [isSign, Bool.or_eq_true, decide_eq_true_eq] at h
  rcases h with rfl | rfl <;> decide

theorem visible_of_isExponentMark {c : Char} (h : isExponentMark c = true) :
    Text.isBlank c = false := by
  simp only [isExponentMark, Bool.or_eq_true, decide_eq_true_eq] at h
  rcases h with rfl | rfl <;> decide

theorem isSign_of_isExponentMark {c : Char} (h : isExponentMark c = true) : isSign c = false := by
  simp only [isExponentMark, Bool.or_eq_true, decide_eq_true_eq] at h
  rcases h with rfl | rfl <;> decide

def marks : List Char := Text.blanks ++ ['+', '-', 'e', 'E', '(', 'j']

def IsBody (c : Char) : Prop := c ∉ marks

namespace IsBody

variable {c : Char}

theorem visible (h : IsBody c) : Text.isBlank c = false := by
  simp only [IsBody, marks, List.mem_append, not_or] at h
  simpa [Text.isBlank] using h.1

theorem unsigned (h : IsBody c) : isSign c = false := by
  simp only [IsBody, marks, List.mem_append, List.mem_cons, not_or] at h
  simp [isSign, h]

theorem unmarked (h : IsBody c) : isExponentMark c = false := by
  simp only [IsBody, marks, List.mem_append, List.mem_cons, not_or] at h
  simp [isExponentMark, h]

theorem ne_open (h : IsBody c) : c ≠ '(' := by
  rintro rfl
  exact h (by decide)

theorem ne_unit (h : IsBody c) : c ≠ 'j' := by
  rintro rfl
  exact h (by decide)

end IsBody

theorem isBody_of_isFigure {c : Char} (h : Decimal.IsFigure c) : IsBody c := by
  intro hmem
  have hmarks : ∀ d ∈ marks, d.isDigit = false ∧ d ≠ '.' := Text.forall_of_all (by decide)
  exact h.ne (hmarks c hmem).1 (hmarks c hmem).2 rfl

def letters : List Char := ['i', 'n', 'f', 't', 'y', 'a']

theorem isBody_of_toLower {c : Char} (h : c.toLower ∈ letters) : IsBody c := by
  intro hmem
  have hmarks : ∀ d ∈ marks, d.toLower ∉ letters := Text.forall_of_all (by decide)
  exact hmarks c hmem h

inductive IsPower : List Char → Prop where
  | empty : IsPower []
  | unsigned {mark : Char} {ds : List Char} (hmark : isExponentMark mark = true) (hds : ds ≠ [])
      (hbody : ∀ c ∈ ds, IsBody c) : IsPower (mark :: ds)
  | signed {mark s : Char} {ds : List Char} (hmark : isExponentMark mark = true)
      (hs : isSign s = true) (hds : ds ≠ []) (hbody : ∀ c ∈ ds, IsBody c) :
      IsPower (mark :: s :: ds)

inductive IsMagnitude : List Char → Prop where
  | mk {body power : List Char} (hne : body ≠ []) (hbody : ∀ c ∈ body, IsBody c)
      (hpower : IsPower power) : IsMagnitude (body ++ power)

inductive IsNumeral : List Char → Prop where
  | unsigned {cs : List Char} (h : IsMagnitude cs) : IsNumeral cs
  | signed {s : Char} {cs : List Char} (hs : isSign s = true) (h : IsMagnitude cs) :
      IsNumeral (s :: cs)

/-! Texts that are read as numbers have this form. -/

theorem sign_cases (cs : List Char) : (Decimal.sign cs).2 = cs ∨
    ∃ s, isSign s = true ∧ cs = s :: (Decimal.sign cs).2 := by
  unfold Decimal.sign
  split
  · exact .inr ⟨'-', by decide, rfl⟩
  · exact .inr ⟨'+', by decide, rfl⟩
  · exact .inl rfl

theorem isPower_of_exponent? {cs : List Char} {e : Int} (h : Decimal.exponent? cs = some e) :
    IsPower cs := by
  cases cs with
  | nil => exact .empty
  | cons mark cs =>
    simp only [Decimal.exponent?] at h
    split at h
    case isFalse => cases h
    case isTrue hmark =>
      have hmark : isExponentMark mark = true := by simpa [isExponentMark] using hmark
      split at h
      case isFalse => cases h
      case isTrue hds =>
        obtain ⟨hne, hdigits⟩ := hds
        have hbody : ∀ c ∈ (Decimal.sign cs).2, IsBody c := fun c hc =>
          isBody_of_isFigure (.inl (List.all_eq_true.1 hdigits c hc))
        obtain hsign | ⟨s, hs, hcs⟩ := sign_cases cs
        · rw [hsign] at hne hbody
          exact .unsigned hmark hne hbody
        · rw [hcs]
          exact .signed hmark hs hne hbody

theorem figures_of_mantissa? {cs whole places rest : List Char}
    (h : Decimal.mantissa? cs = some (whole, places, rest)) :
    ∃ figures, figures ≠ [] ∧ (∀ c ∈ figures, Decimal.IsFigure c) ∧ cs = figures ++ rest := by
  have hdigits : ∀ ds : List Char, ∀ c ∈ ds.takeWhile Char.isDigit, Decimal.IsFigure c :=
    fun ds c hc => .inl (List.all_eq_true.1 List.all_takeWhile c hc)
  have hcs := List.takeWhile_append_dropWhile (p := Char.isDigit) (l := cs)
  unfold Decimal.mantissa? at h
  simp only at h
  split at h
  case h_1 tail htail =>
    split at h
    · cases h
    · obtain ⟨rfl, rfl, rfl⟩ := h
      refine ⟨cs.takeWhile Char.isDigit ++ '.' :: tail.takeWhile Char.isDigit, by simp, ?_, ?_⟩
      · simp only [List.mem_append, List.mem_cons]
        rintro c (hc | rfl | hc)
        · exact hdigits cs c hc
        · exact .inr rfl
        · exact hdigits tail c hc
      · rw [List.append_assoc, List.cons_append, List.takeWhile_append_dropWhile, ← htail, hcs]
  case h_2 =>
    split at h
    · cases h
    · rename_i hne
      obtain ⟨rfl, rfl, rfl⟩ := h
      exact ⟨_, hne, hdigits cs, hcs.symm⟩

theorem isMagnitude_of_unsigned? {cs : List Char} {d : Decimal}
    (h : Decimal.unsigned? cs = some d) : IsMagnitude cs := by
  simp only [Decimal.unsigned?, Option.bind_eq_bind, Option.bind_eq_some_iff] at h
  obtain ⟨⟨whole, places, rest⟩, hmantissa, e, hexponent, -⟩ := h
  obtain ⟨figures, hne, hfigures, rfl⟩ := figures_of_mantissa? hmantissa
  exact .mk hne (fun c hc => isBody_of_isFigure (hfigures c hc)) (isPower_of_exponent? hexponent)

theorem isMagnitude_of_word {cs word : List Char} (hword : cs.map Char.toLower = word)
    (hne : word ≠ []) (hletters : ∀ c ∈ word, c ∈ letters) : IsMagnitude cs := by
  subst hword
  have hbody : ∀ c ∈ cs, IsBody c := fun c hc =>
    isBody_of_toLower (hletters _ (List.mem_map_of_mem hc))
  simpa using IsMagnitude.mk (by simpa using hne) hbody .empty

theorem isNumeral_of_read? {cs : List Char} {x : Double} (h : Decimal.read? cs = some x) :
    IsNumeral cs := by
  have hmagnitude : IsMagnitude (Decimal.sign cs).2 := by
    unfold Decimal.read? at h
    simp only at h
    split at h
    case h_1 d hd => exact isMagnitude_of_unsigned? hd
    case h_2 =>
      split at h
      case isTrue hword =>
        simp only [Decimal.infinityWords, List.contains_iff_mem, List.mem_cons,
          List.not_mem_nil, or_false] at hword
        obtain hword | hword := hword
        · exact isMagnitude_of_word hword (by decide) (Text.forall_of_all (by decide))
        · exact isMagnitude_of_word hword (by decide) (Text.forall_of_all (by decide))
      case isFalse =>
        split at h
        case isTrue hword =>
          exact isMagnitude_of_word hword (by decide) (Text.forall_of_all (by decide))
        case isFalse => cases h
  obtain hsign | ⟨s, hs, hcs⟩ := sign_cases cs
  · exact .unsigned (hsign ▸ hmagnitude)
  · rw [hcs]
    exact .signed hs hmagnitude

/-! What the form says about the characters. -/

section
variable {cs : List Char}

theorem visible_of_isBody (h : ∀ c ∈ cs, IsBody c) : Text.Visible cs := fun c hc => (h c hc).visible

theorem exists_getLast_append (before : List Char) (hne : cs ≠ []) (h : ∀ c ∈ cs, IsBody c) :
    ∃ c, (before ++ cs).getLast? = some c ∧ IsBody c := by
  refine ⟨cs.getLast hne, ?_, h _ (List.getLast_mem hne)⟩
  rw [List.getLast?_append_of_ne_nil before hne, List.getLast?_eq_some_getLast hne]

theorem cutAtSign_of_isBody (h : ∀ c ∈ cs, IsBody c) {rest : List Char}
    (hrest : ∀ c, cutAtSign c rest = none) (previous : Char) :
    cutAtSign previous (cs ++ rest) = none := by
  induction cs generalizing previous with
  | nil => exact hrest previous
  | cons c cs ih =>
    have hcut := ih (fun d hd => h d (List.mem_cons_of_mem _ hd)) c
    simp [cutAtSign, hcut, (h c List.mem_cons_self).unsigned]

theorem IsPower.visible (h : IsPower cs) : Text.Visible cs := by
  cases h with
  | empty => exact fun c hc => nomatch hc
  | unsigned hmark _ hbody =>
    exact Text.visible_cons.2 ⟨visible_of_isExponentMark hmark, visible_of_isBody hbody⟩
  | signed hmark hs _ hbody =>
    exact Text.visible_cons.2 ⟨visible_of_isExponentMark hmark,
      Text.visible_cons.2 ⟨visible_of_isSign hs, visible_of_isBody hbody⟩⟩

/-- The sign of an exponent is no place for a cut. -/
theorem IsPower.cutAtSign_eq_none (h : IsPower cs) (previous : Char) :
    cutAtSign previous cs = none := by
  have hdigits : ∀ {ds : List Char}, (∀ c ∈ ds, IsBody c) → ∀ c, cutAtSign c ds = none := by
    intro ds hds c
    have hcut : cutAtSign c (ds ++ []) = none := cutAtSign_of_isBody hds (fun _ => rfl) c
    rwa [List.append_nil] at hcut
  cases h with
  | empty => rfl
  | unsigned hmark _ hbody =>
    simp [cutAtSign, hdigits hbody, isSign_of_isExponentMark hmark]
  | signed hmark hs _ hbody =>
    simp [cutAtSign, hdigits hbody, isSign_of_isExponentMark hmark, hmark]

namespace IsMagnitude

theorem visible (h : IsMagnitude cs) : Text.Visible cs := by
  obtain ⟨-, hbody, hpower⟩ := h
  exact Text.visible_append.2 ⟨visible_of_isBody hbody, hpower.visible⟩

theorem cutAtSign_eq_none (h : IsMagnitude cs) (previous : Char) :
    cutAtSign previous cs = none := by
  obtain ⟨-, hbody, hpower⟩ := h
  exact cutAtSign_of_isBody hbody hpower.cutAtSign_eq_none previous

theorem exists_head (h : IsMagnitude cs) : ∃ c rest, cs = c :: rest ∧ IsBody c := by
  obtain ⟨hne, hbody, -⟩ := h
  obtain ⟨c, body, rfl⟩ := List.exists_cons_of_ne_nil hne
  exact ⟨c, _, List.cons_append, hbody c List.mem_cons_self⟩

theorem exists_getLast (h : IsMagnitude cs) : ∃ c, cs.getLast? = some c ∧ IsBody c := by
  obtain ⟨hne, hbody, hpower⟩ := h
  rename_i body power
  cases hpower with
  | empty => simpa using exists_getLast_append [] hne hbody
  | @unsigned mark ds _ hds hdigits =>
    simpa using exists_getLast_append (body ++ [mark]) hds hdigits
  | @signed mark s ds _ _ hds hdigits =>
    simpa using exists_getLast_append (body ++ [mark, s]) hds hdigits

end IsMagnitude

namespace IsNumeral

theorem visible (h : IsNumeral cs) : Text.Visible cs := by
  cases h with
  | unsigned h => exact h.visible
  | signed hs h => exact Text.visible_cons.2 ⟨visible_of_isSign hs, h.visible⟩

theorem exists_head (h : IsNumeral cs) : ∃ c rest, cs = c :: rest ∧ c ≠ '(' := by
  cases h with
  | unsigned h =>
    obtain ⟨c, rest, hcs, hc⟩ := h.exists_head
    exact ⟨c, rest, hcs, hc.ne_open⟩
  | signed hs h =>
    refine ⟨_, _, rfl, ?_⟩
    rintro rfl
    simp [isSign] at hs

theorem exists_getLast (h : IsNumeral cs) : ∃ c, cs.getLast? = some c ∧ IsBody c := by
  cases h with
  | unsigned h => exact h.exists_getLast
  | signed hs h =>
    obtain ⟨c, hc, hbody⟩ := h.exists_getLast
    exact ⟨c, by simp [List.getLast?_cons, hc], hbody⟩

theorem magnitude {s : Char} (hs : isSign s = true) (h : IsNumeral (s :: cs)) :
    IsMagnitude cs := by
  cases h with
  | signed _ h => exact h
  | unsigned h =>
    obtain ⟨c, rest, hcons, hc⟩ := h.exists_head
    obtain ⟨rfl, rfl⟩ := List.cons_eq_cons.1 hcons
    rw [hc.unsigned] at hs
    cases hs

end IsNumeral

end

end Value

end AnswerKey

import AnswerKey.Proofs.Value.Numeral

/-! Two numbers in a row are read as a complex value, and a value as text is read
back as that value. -/
namespace AnswerKey.Value

/-- The cut is at the last sign that does not belong to an exponent. -/
theorem cutAtSign_append {previous s : Char} {before after : List Char} (hs : isSign s = true)
    (hbefore : ∀ c ∈ (previous :: before).getLast?, isExponentMark c = false)
    (hafter : cutAtSign s after = none) :
    cutAtSign previous (before ++ s :: after) = some (before, s :: after) := by
  induction before generalizing previous with
  | nil =>
    have hprevious : isExponentMark previous = false := hbefore previous rfl
    simp [cutAtSign, hafter, hs, hprevious]
  | cons c before ih =>
    have hrest : cutAtSign c (before ++ s :: after) = some (before, s :: after) :=
      ih (by simpa [List.getLast?_cons] using hbefore)
    simp [cutAtSign, hrest]

section
variable {s : Char} {re im : List Char} (hs : isSign s = true) (hre : IsNumeral re)
  (him : IsMagnitude im)
include hs hre him

theorem components_append : components (re ++ s :: im) = (re, s :: im) := by
  obtain ⟨c, rest, rfl, -⟩ := hre.exists_head
  obtain ⟨last, hlast, hbody⟩ := hre.exists_getLast
  have hmark : ∀ d ∈ (c :: rest).getLast?, isExponentMark d = false := by
    rw [hlast]
    rintro d ⟨⟩
    exact hbody.unmarked
  simp [components, cutAtSign_append hs hmark (him.cutAtSign_eq_none s)]

theorem readComplex?_append {x y : Double} (hx : Decimal.read? re = some x)
    (hy : Decimal.read? (s :: im) = some y) :
    readComplex? (re ++ s :: im) = some (complex ⟨x, y⟩) := by
  have hcoefficient : Text.Visible (s :: im) :=
    Text.visible_cons.2 ⟨visible_of_isSign hs, him.visible⟩
  obtain ⟨c, rest, rfl, -⟩ := him.exists_head
  have hunit : unitCoefficient (s :: c :: rest) = s :: c :: rest := by simp [unitCoefficient]
  simp only [readComplex?, components_append hs hre him, hunit, Text.trim_of_visible hre.visible,
    Text.trim_of_visible hcoefficient, hx, hy]
  rfl

end

theorem stripLast?_concat (c : Char) (cs : List Char) : stripLast? c (cs ++ [c]) = some cs := by
  simp [stripLast?]

theorem readUnbracketed?_unit (body : List Char) :
    readUnbracketed? (body ++ ['j']) = readComplex? body := by
  rw [readUnbracketed?, stripLast?_concat]

theorem readChars?_bracketed {inner : List Char} (h : Text.Visible inner) :
    readChars? ('(' :: (inner ++ [')'])) = readUnbracketed? inner := by
  have houter : Text.Visible ('(' :: (inner ++ [')'])) :=
    Text.visible_cons.2 ⟨by decide, Text.visible_append.2 ⟨h, Text.forall_of_all (by decide)⟩⟩
  simp only [readChars?, Text.trim_of_visible houter, stripLast?_concat, Option.bind_some,
    Text.trim_of_visible h]

theorem readChars?_unbracketed {c : Char} {rest : List Char} (h : Text.Visible (c :: rest))
    (hopen : c ≠ '(') : readChars? (c :: rest) = readUnbracketed? (c :: rest) := by
  rw [readChars?, Text.trim_of_visible h]
  split
  case h_1 heq =>
    exact absurd (List.cons_eq_cons.1 heq).1 hopen
  case h_2 => rfl

theorem ofText_eq_ok {t : String} {v : Value} (h : readChars? t.toList = some v) :
    ofText t = .ok v := by
  rw [ofText, h]

/-- Two numbers in a row, the second one with its sign, and the unit behind
them are the complex number of the two, in brackets or not. -/
theorem ofText_append {re im : String} {s : Char} {rest : List Char} {x y : Double}
    (hs : isSign s = true) (him : im.toList = s :: rest) (hx : Decimal.read? re.toList = some x)
    (hy : Decimal.read? im.toList = some y) :
    ofText (re ++ im ++ "j") = .ok (complex ⟨x, y⟩) ∧
      ofText ("(" ++ re ++ im ++ "j)") = .ok (complex ⟨x, y⟩) := by
  have hre : IsNumeral re.toList := isNumeral_of_read? hx
  rw [him] at hy
  have hrest : IsMagnitude rest := (isNumeral_of_read? hy).magnitude hs
  have hread := readComplex?_append hs hre hrest hx hy
  have hbody : Text.Visible (re.toList ++ s :: rest ++ ['j']) := by
    simp only [Text.visible_append, Text.visible_cons]
    exact ⟨⟨hre.visible, visible_of_isSign hs, hrest.visible⟩, by decide, List.forall_mem_nil _⟩
  constructor
  · refine ofText_eq_ok ?_
    obtain ⟨c, tail, htail, hopen⟩ := hre.exists_head
    have htext : (re ++ im ++ "j").toList = re.toList ++ s :: rest ++ ['j'] := by simp [him]
    rw [htext]
    rw [htail] at hbody hread ⊢
    exact (readChars?_unbracketed hbody hopen).trans ((readUnbracketed?_unit _).trans hread)
  · refine ofText_eq_ok ?_
    have htext : ("(" ++ re ++ im ++ "j)").toList =
        '(' :: (re.toList ++ s :: rest ++ ['j'] ++ [')']) := by simp [him]
    rw [htext, readChars?_bracketed hbody, readUnbracketed?_unit, hread]

def ReadsBack : Value → Prop
  | real _ => True
  | complex z => Decimal.ReadsBack z.re ∧ Decimal.ReadsBack z.im

instance : DecidablePred ReadsBack
  | real _ => inferInstanceAs (Decidable True)
  | complex z => inferInstanceAs (Decidable (Decimal.ReadsBack z.re ∧ Decimal.ReadsBack z.im))

theorem ofText_real {x : Double} (h : Decimal.ReadsBack x) :
    ofText (real x).text = .ok (real x) := by
  have hnumeral : IsNumeral (Decimal.plain x).toList := isNumeral_of_read? h
  obtain ⟨last, hlast, hbody⟩ := hnumeral.exists_getLast
  obtain ⟨c, rest, hcons, hopen⟩ := hnumeral.exists_head
  have hunit : stripLast? 'j' (Decimal.plain x).toList = none := by
    simp [stripLast?, hlast, hbody.ne_unit]
  refine ofText_eq_ok ?_
  calc
    readChars? (Decimal.plain x).toList = readUnbracketed? (Decimal.plain x).toList := by
      have hvisible := hnumeral.visible
      rw [hcons] at hvisible ⊢
      exact readChars?_unbracketed hvisible hopen
    _ = (Decimal.read? (Decimal.plain x).toList).map real := by rw [readUnbracketed?, hunit]
    _ = some (real x) := by rw [h]; rfl

theorem ofText_complex {z : Complex} (him : z.im.isNaN = false) (hreBack : Decimal.ReadsBack z.re)
    (himBack : Decimal.ReadsBack z.im) : ofText (complex z).text = .ok (complex z) := by
  obtain ⟨magnitude, hsign, hplain, habs⟩ := Decimal.exists_magnitude him
  rw [Decimal.ReadsBack, hplain] at himBack
  obtain ⟨s, hs, hmark, hread⟩ : ∃ s, isSign s = true ∧
      (if z.im.isNegative then "-" else "+").toList = [s] ∧
      Decimal.read? (s :: magnitude) = some z.im := by
    cases hnegative : z.im.isNegative with
    | false =>
      simp only [hnegative, Bool.false_eq_true, if_false] at himBack
      exact ⟨'+', by decide, rfl, (Decimal.read?_plus hsign).trans himBack⟩
    | true =>
      simp only [hnegative, if_true] at himBack
      exact ⟨'-', by decide, rfl, himBack⟩
  have htext : (complex z).text =
      "(" ++ Decimal.plain z.re ++ String.ofList (s :: magnitude) ++ "j)" := by
    apply String.ext
    simp [text, habs, hmark]
  rw [htext]
  exact (ofText_append hs String.toList_ofList hreBack (by simpa using hread)).2

def parts : Value → List Double
  | real x => [x]
  | complex z => [z.re, z.im]

theorem ofText_text {v : Value} (h : ∀ x ∈ v.parts, x.isNaN = false)
    (hback : ∀ x ∈ v.parts, x.isFinite = true → Decimal.ReadsBack x) : ofText v.text = .ok v := by
  have hparts : ∀ x ∈ v.parts, Decimal.ReadsBack x := fun x hx =>
    Decimal.readsBack_of_isFinite (h x hx) (hback x hx)
  cases v with
  | real x => exact ofText_real (hparts x (by simp [parts]))
  | complex z =>
    exact ofText_complex (h z.im (by simp [parts])) (hparts z.re (by simp [parts]))
      (hparts z.im (by simp [parts]))

end AnswerKey.Value

import AnswerKey.Json.Number
import AnswerKey.Json.Reader
import AnswerKey.Proofs.Decimal.Leading
import AnswerKey.Proofs.Token.Scanning
import AnswerKey.Proofs.Value.Plain

/-! Quoted texts and numbers are read back where they stand in a document. -/
namespace AnswerKey.Json

/-! ### Texts -/

def plainlyEscaped : List Char := ['"', '\\', '\x08', '\x0c', '\n', '\r', '\t']

def Piece.ofChar (c : Char) : Piece :=
  if c.toNat < 0x20 ∧ c ∉ plainlyEscaped then .unit c.toNat else .char c

theorem fourHex?_control : ∀ n < 0x20,
    fourHex? '0' '0' (hexDigit (n / 16)) (hexDigit (n % 16)) = some n := by
  decide

theorem escape_plainly : ∀ c ∈ plainlyEscaped, ∃ e ∈ simpleEscapes,
    escape c = ['\\', e.1] ∧ e.1 ≠ 'u' ∧ simpleEscapes.lookup e.1 = some c := by
  have hall : plainlyEscaped.all (fun c => simpleEscapes.any fun e =>
      escape c = ['\\', e.1] ∧ e.1 ≠ 'u' ∧ simpleEscapes.lookup e.1 = some c) = true := by decide
  simpa only [List.all_eq_true, List.any_eq_true, decide_eq_true_eq] using hall

theorem pieces?_simple {c e : Char} (rest : List Char) (hc : c ≠ 'u')
    (h : simpleEscapes.lookup c = some e) : pieces? ('\\' :: c :: rest) =
    (pieces? rest).map fun (ps, after) => (.char e :: ps, after) := by
  cases hrest : pieces? rest <;> simp [pieces?, hc, h, hrest]

theorem pieces?_escape (c : Char) (rest : List Char) : pieces? (escape c ++ rest) =
    (pieces? rest).map fun (ps, after) => (Piece.ofChar c :: ps, after) := by
  by_cases hplain : c ∈ plainlyEscaped
  · obtain ⟨e, -, hescape, hu, hlookup⟩ := escape_plainly c hplain
    have hpiece : Piece.ofChar c = .char c := if_neg fun h => h.2 hplain
    rw [hescape, hpiece]
    exact pieces?_simple rest hu hlookup
  have hother : c ≠ '"' ∧ c ≠ '\\' ∧ c ≠ '\x08' ∧ c ≠ '\x0c' ∧ c ≠ '\n' ∧ c ≠ '\r' ∧
      c ≠ '\t' := by simpa [plainlyEscaped] using hplain
  by_cases hcontrol : c.toNat < 0x20
  · have hpiece : Piece.ofChar c = .unit c.toNat := if_pos ⟨hcontrol, hplain⟩
    cases hrest : pieces? rest <;>
      simp [escape, pieces?, hpiece, hother, hcontrol, fourHex?_control c.toNat hcontrol, hrest]
  · have hpiece : Piece.ofChar c = .char c := if_neg fun h => hcontrol h.1
    cases hrest : pieces? rest <;> simp [escape, pieces?, hpiece, hother, hcontrol, hrest]

theorem decode?_unit {n : Nat} (h : n < 0x20) (ps : List Piece) :
    decode? (.unit n :: ps) = (decode? ps).map (Char.ofNat n :: ·) := by
  have hhigh : isHighUnit n = false := by simp [isHighUnit]; omega
  have hlow : isLowUnit n = false := by simp [isLowUnit]; omega
  cases ps with
  | nil => simp [decode?, hhigh, hlow]
  | cons p ps => cases p <;> simp [decode?, hhigh, hlow]

theorem decode?_ofChar (c : Char) (ps : List Piece) :
    decode? (Piece.ofChar c :: ps) = (decode? ps).map (c :: ·) := by
  unfold Piece.ofChar
  split
  case isTrue h => rw [decode?_unit h.1, Char.ofNat_toNat]
  case isFalse => simp [decode?]

theorem decode?_map_ofChar (cs : List Char) : decode? (cs.map Piece.ofChar) = some cs := by
  induction cs with
  | nil => rfl
  | cons c cs ih => rw [List.map_cons, decode?_ofChar, ih, Option.map_some]

theorem pieces?_flatMap_escape (cs rest : List Char) :
    pieces? (cs.flatMap escape ++ '"' :: rest) = some (cs.map Piece.ofChar, rest) := by
  induction cs with
  | nil => simp [pieces?]
  | cons c cs ih =>
    rw [List.flatMap_cons, List.append_assoc, pieces?_escape, ih]
    rfl

theorem quotedText?_quoted (s : String) : ∃ tail, (quoted s).toList = '"' :: tail ∧
    ∀ rest, quotedText? (tail ++ rest) = some (some s, rest) := by
  refine ⟨s.toList.flatMap escape ++ ['"'], by simp [quoted], fun rest => ?_⟩
  rw [List.append_assoc, List.singleton_append]
  simp [quotedText?, pieces?_flatMap_escape, decode?_map_ofChar]

/-! ### Numbers -/

structure IsRun (ds : List Char) : Prop where
  nonempty : ds ≠ []
  digit : ∀ c ∈ ds, c.isDigit = true

structure IsWhole (ds : List Char) : Prop extends IsRun ds where
  zero_alone : ds.head? = some '0' → ds.length = 1

inductive IsPlaces : List Char → Prop where
  | empty : IsPlaces []
  | point {ds : List Char} (h : IsRun ds) : IsPlaces ('.' :: ds)

/-- An exponent, which is always written with a sign. -/
inductive IsPower : List Char → Prop where
  | empty : IsPower []
  | signed {s : Char} {ds : List Char} (hs : s = '-' ∨ s = '+') (h : IsRun ds) :
      IsPower ('e' :: s :: ds)

inductive IsMagnitude : List Char → Prop where
  | mk {whole places power : List Char} (hwhole : IsWhole whole) (hplaces : IsPlaces places)
      (hpower : IsPower power) : IsMagnitude (whole ++ (places ++ power))

inductive IsLexeme : List Char → Prop where
  | unsigned {cs : List Char} (h : IsMagnitude cs) : IsLexeme cs
  | minus {cs : List Char} (h : IsMagnitude cs) : IsLexeme ('-' :: cs)

def Ends (rest : List Char) : Prop :=
  ∀ c ∈ rest.head?, c.isDigit = false ∧ c ≠ '.' ∧ c ≠ 'e' ∧ c ≠ 'E'

@[simp] theorem ends_nil : Ends [] := fun _ hc => nomatch hc

theorem ends_cons {c : Char} {rest : List Char} :
    Ends (c :: rest) ↔ c.isDigit = false ∧ c ≠ '.' ∧ c ≠ 'e' ∧ c ≠ 'E' := by
  simp [Ends]

section
variable {ds rest : List Char}

theorem digits?_append (h : IsRun ds) (hrest : ∀ c ∈ rest.head?, c.isDigit = false) :
    digits? (ds ++ rest) = some (ds, rest) := by
  obtain ⟨htake, hdrop⟩ := takeWhile_of_all h.digit hrest
  simp only [digits?, htake, hdrop, if_neg h.nonempty]

theorem whole?_append (h : IsWhole ds) (hrest : ∀ c ∈ rest.head?, c.isDigit = false) :
    whole? (ds ++ rest) = some (ds, rest) := by
  have hzero : ¬(ds.head? = some '0' ∧ ds.length ≠ 1) := fun ⟨hhead, hlength⟩ =>
    hlength (h.zero_alone hhead)
  simp only [whole?, digits?_append h.toIsRun hrest, Option.bind_eq_bind, Option.bind_some,
    if_neg hzero]
  rfl

theorem places?_append (h : IsPlaces ds)
    (hrest : ∀ c ∈ rest.head?, c.isDigit = false ∧ c ≠ '.') :
    places? (ds ++ rest) = some (ds, rest) := by
  cases h with
  | empty =>
    cases rest with
    | nil => rfl
    | cons c rest => simp [places?, (hrest c rfl).2]
  | point h => simp [places?, digits?_append h fun c hc => (hrest c hc).1]

theorem power?_append (h : IsPower ds) (hrest : Ends rest) :
    power? (ds ++ rest) = some (ds, rest) := by
  cases h with
  | empty =>
    cases rest with
    | nil => rfl
    | cons c rest =>
      obtain ⟨-, -, hlower, hupper⟩ := ends_cons.1 hrest
      simp [power?, hlower, hupper]
  | signed hs h =>
    have hdigits := digits?_append h fun c hc => (hrest c hc).1
    obtain rfl | rfl := hs
    · simp [power?, signChars, hdigits]
    · simp [power?, signChars, hdigits]

theorem head?_append_of_empty {p : Char → Prop} (hds : ∀ c ∈ ds.head?, p c)
    (hrest : ∀ c ∈ rest.head?, p c) : ∀ c ∈ (ds ++ rest).head?, p c := by
  cases ds with
  | nil => exact hrest
  | cons c ds => exact hds

theorem IsPower.head (h : IsPower ds) : ∀ c ∈ ds.head?, c.isDigit = false ∧ c ≠ '.' := by
  cases h with
  | empty => exact fun c hc => nomatch hc
  | signed hs h =>
    rintro c ⟨⟩
    exact ⟨by decide, by decide⟩

theorem IsPlaces.head (h : IsPlaces ds) : ∀ c ∈ ds.head?, c.isDigit = false := by
  cases h with
  | empty => exact fun c hc => nomatch hc
  | point h =>
    rintro c ⟨⟩
    decide

theorem IsMagnitude.head {cs : List Char} (h : IsMagnitude cs) :
    ∃ c tail, cs = c :: tail ∧ c.isDigit = true := by
  obtain ⟨hwhole, -, -⟩ := h
  obtain ⟨c, tail, rfl⟩ := List.exists_cons_of_ne_nil hwhole.nonempty
  exact ⟨c, _, List.cons_append, hwhole.digit c List.mem_cons_self⟩

theorem IsMagnitude.parts {cs : List Char} (h : IsMagnitude cs) (hrest : Ends rest) :
    ∃ whole places power afterWhole afterPlaces, whole ++ (places ++ power) = cs ∧
      whole? (cs ++ rest) = some (whole, afterWhole) ∧
      places? afterWhole = some (places, afterPlaces) ∧
      power? afterPlaces = some (power, rest) := by
  obtain @⟨whole, places, power, hwhole, hplaces, hpower⟩ := h
  have hpowerHead : ∀ c ∈ (power ++ rest).head?, c.isDigit = false ∧ c ≠ '.' :=
    head?_append_of_empty hpower.head fun c hc => ⟨(hrest c hc).1, (hrest c hc).2.1⟩
  have hplacesHead : ∀ c ∈ (places ++ (power ++ rest)).head?, c.isDigit = false :=
    head?_append_of_empty hplaces.head fun c hc => (hpowerHead c hc).1
  refine ⟨whole, places, power, places ++ (power ++ rest), power ++ rest, rfl, ?_,
    places?_append hplaces hpowerHead, power?_append hpower hrest⟩
  simpa using whole?_append hwhole hplacesHead

/-- The reader of a number takes all of it and nothing else. -/
theorem lexeme?_append {cs : List Char} (h : IsLexeme cs) (hrest : Ends rest) :
    lexeme? (cs ++ rest) = some (cs, rest) := by
  cases h with
  | unsigned h =>
    obtain ⟨whole, places, power, afterWhole, afterPlaces, hcs, hwhole, hplaces, hpower⟩ :=
      h.parts hrest
    obtain ⟨c, tail, hcons, hdigit⟩ := h.head
    have hminus : c ≠ '-' := by
      rintro rfl
      cases hdigit
    rw [hcons, List.cons_append] at hwhole ⊢
    simp [lexeme?, hminus, hwhole, hplaces, hpower, hcs.trans hcons]
  | @minus cs h =>
    obtain ⟨whole, places, power, afterWhole, afterPlaces, hcs, hwhole, hplaces, hpower⟩ :=
      h.parts hrest
    simp [lexeme?, hwhole, hplaces, hpower, hcs]

/-! ### Doubles as numbers -/

theorem isRun_append {a b : List Char} (ha : IsRun a) (hb : ∀ c ∈ b, c.isDigit = true) :
    IsRun (a ++ b) := by
  refine ⟨by simp [ha.nonempty], fun c hc => ?_⟩
  exact (List.mem_append.1 hc).elim (ha.digit c) (hb c)

theorem isRun_digitChars (n : Nat) : IsRun (Decimal.digitChars n) :=
  ⟨Nat.toDigits_ne_nil, fun _ hc => Nat.isDigit_of_mem_toDigits (by decide) (by decide) hc⟩

theorem isDigit_of_mem_zeros {n : Nat} {c : Char} (h : c ∈ Decimal.zeros n) : c.isDigit = true := by
  rw [List.eq_of_mem_replicate h]
  decide

theorem isWhole_zero : IsWhole ['0'] := ⟨⟨by simp, by simp⟩, fun _ => rfl⟩

theorem isWhole_of_head {ds : List Char} (h : IsRun ds) (hhead : ds.head? ≠ some '0') :
    IsWhole ds := ⟨h, fun hzero => absurd hzero hhead⟩

theorem isMagnitude_of_places {whole places : List Char} (hwhole : IsWhole whole)
    (hplaces : IsRun places) : IsMagnitude (whole ++ '.' :: places) := by
  simpa using IsMagnitude.mk hwhole (.point hplaces) .empty

theorem isMagnitude_exponential (d : Decimal) : IsMagnitude (Decimal.exponential d "+") := by
  have hdigits := isRun_digitChars d.digits
  obtain ⟨s, hs, hmark⟩ : ∃ s, (s = '-' ∨ s = '+') ∧
      (if d.leading < 0 then "-" else "+").toList = [s] := by
    by_cases hneg : d.leading < 0
    · exact ⟨'-', .inl rfl, by rw [if_pos hneg]; rfl⟩
    · exact ⟨'+', .inr rfl, by rw [if_neg hneg]; rfl⟩
  have hpower : IsPower ('e' :: s :: Decimal.digitChars d.leading.natAbs) :=
    .signed hs (isRun_digitChars _)
  unfold Decimal.exponential
  simp only [hmark]
  split
  case h_1 hnil => exact absurd hnil hdigits.nonempty
  case h_2 c hone =>
    rw [hone] at hdigits
    have hwhole : IsWhole [c] := ⟨hdigits, fun _ => rfl⟩
    simpa using IsMagnitude.mk hwhole .empty hpower
  case h_3 c rest hrest hcons =>
    rw [hcons] at hdigits
    have hall : c.isDigit = true ∧ ∀ x ∈ rest, x.isDigit = true := by
      simpa using hdigits.digit
    have hwhole : IsWhole [c] := ⟨⟨by simp, by simpa using hall.1⟩, fun _ => rfl⟩
    simpa using IsMagnitude.mk hwhole (.point ⟨hrest, hall.2⟩) hpower

theorem isMagnitude_positional {d : Decimal} (h : d.digits ≠ 0) :
    IsMagnitude (if 0 ≤ d.exponent then Decimal.positional d ++ ['.', '0']
      else Decimal.positional d) := by
  have hdigits := isRun_digitChars d.digits
  have hfirst := Decimal.head?_digitChars h
  by_cases hexponent : 0 ≤ d.exponent
  · simp only [Decimal.positional, if_pos hexponent]
    refine isMagnitude_of_places ?_ ⟨by simp, by simp⟩
    refine isWhole_of_head (isRun_append hdigits fun _ => isDigit_of_mem_zeros) ?_
    rwa [List.head?_append_of_ne_nil _ hdigits.nonempty]
  by_cases hplaces : (-d.exponent).toNat < (Decimal.digitChars d.digits).length
  · simp only [Decimal.positional, if_neg hexponent, if_pos hplaces]
    have hlength : (Decimal.digitChars d.digits).length - (-d.exponent).toNat <
        (Decimal.digitChars d.digits).length := by omega
    refine isMagnitude_of_places (isWhole_of_head ⟨?_, fun c hc => ?_⟩ ?_) ⟨?_, fun c hc => ?_⟩
    · simpa [List.take_eq_nil_iff] using ⟨by omega, hdigits.nonempty⟩
    · exact hdigits.digit c (List.mem_of_mem_take hc)
    · rwa [List.head?_take, if_neg (by omega)]
    · simpa [List.drop_eq_nil_iff] using hlength
    · exact hdigits.digit c (List.mem_of_mem_drop hc)
  · simp only [Decimal.positional, if_neg hexponent, if_neg hplaces]
    refine isMagnitude_of_places isWhole_zero ⟨by simp [hdigits.nonempty], fun c hc => ?_⟩
    exact (List.mem_append.1 hc).elim isDigit_of_mem_zeros (hdigits.digit c)

theorem isLexeme_of_json? {x : Double} {lexeme : String} (h : Decimal.json? x = some lexeme) :
    IsLexeme lexeme.toList := by
  have hsigned : ∀ negative cs, IsMagnitude cs → IsLexeme (Decimal.signed negative cs).toList := by
    intro negative cs hcs
    rw [Decimal.toList_signed]
    cases negative with
    | false => exact .unsigned hcs
    | true => exact .minus hcs
  unfold Decimal.json? at h
  split at h
  case h_2 => cases h
  case h_1 negative mantissa exponent hx =>
    split at h
    case isTrue =>
      cases h
      exact hsigned _ _ (isMagnitude_of_places isWhole_zero isWhole_zero.toIsRun)
    case isFalse hzero =>
      simp only at h
      split at h
      · cases h
        exact hsigned _ _ (isMagnitude_positional (Decimal.digits_shortest hzero))
      · cases h
        exact hsigned _ _ (isMagnitude_exponential _)

theorem exists_json? {x : Double} (h : x.isFinite = true) :
    ∃ lexeme, Decimal.json? x = some lexeme := by
  obtain ⟨negative, mantissa, exponent, hx, -⟩ := Double.shape_abs h
  simp only [Decimal.json?, hx]
  split
  · exact ⟨_, rfl⟩
  · split <;> exact ⟨_, rfl⟩

end

end AnswerKey.Json

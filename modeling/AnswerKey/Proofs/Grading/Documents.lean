import AnswerKey.Grading.Document
import AnswerKey.Proofs.Json.RoundTrip

/-! Outcomes and verdicts are read back from their documents. -/
namespace AnswerKey

namespace Json

/-! ### Readers of the parts of a document -/

theorem mapM_eq_map {α β : Type} {f : α → Option β} {g : α → β} {xs : List α}
    (h : ∀ x ∈ xs, f x = some (g x)) : xs.mapM f = some (xs.map g) := by
  induction xs with
  | nil => rfl
  | cons x xs ih =>
    have htail := ih fun y hy => h y (List.mem_cons_of_mem _ hy)
    simp [h x List.mem_cons_self, htail]

theorem list?_array {α : Type} {read : Json → Option α} {write : α → Json} {xs : List α}
    (h : ∀ x ∈ xs, read (write x) = some x) : list? read (array (xs.map write)) = some xs := by
  rw [list?, List.mapM_map]
  simpa using mapM_eq_map (f := read ∘ write) (g := id) h

theorem optional?_optionalText (s : Option String) :
    optional? text? (optionalText s) = some s := by
  cases s <;> rfl

theorem valuesOf_cons (key : String) (e : String × Json) (entries : List (String × Json)) :
    valuesOf key (keyed (e :: entries)) =
      if e.1 = key then e.2 :: valuesOf key (keyed entries) else valuesOf key (keyed entries) := by
  by_cases hkey : e.1 = key <;> simp [valuesOf, keyed, hkey]

theorem valuesOf_of_notMem {entries : List (String × Json)} {key : String}
    (h : key ∉ entries.map (·.1)) : valuesOf key (keyed entries) = [] := by
  induction entries with
  | nil => rfl
  | cons e entries ih =>
    simp only [List.map_cons, List.mem_cons, not_or] at h
    rw [valuesOf_cons, if_neg (Ne.symm h.1), ih h.2]

theorem valuesOf_of_mem {entries : List (String × Json)} (hnodup : (entries.map (·.1)).Nodup)
    {e : String × Json} (he : e ∈ entries) : valuesOf e.1 (keyed entries) = [e.2] := by
  induction entries with
  | nil => cases he
  | cons first entries ih =>
    have hfirst : first.1 ∉ entries.map (·.1) := (List.nodup_cons.1 hnodup).1
    have hrest := (List.nodup_cons.1 hnodup).2
    rw [valuesOf_cons]
    obtain rfl | he := List.mem_cons.1 he
    · rw [if_pos rfl, valuesOf_of_notMem hfirst]
    · have hkey : e.1 ∈ entries.map (·.1) := List.mem_map_of_mem he
      have hne : first.1 ≠ e.1 := fun heq => hfirst (heq ▸ hkey)
      rw [if_neg hne, ih hrest he]

theorem mapM_field? (entries : List (String × Json)) (hnodup : (entries.map (·.1)).Nodup) :
    (entries.map (·.1)).mapM (fun name => field? name (keyed entries)) =
      some (entries.map fun e => some e.2) := by
  rw [List.mapM_map]
  refine mapM_eq_map fun e he => ?_
  rw [Function.comp_apply, field?, valuesOf_of_mem hnodup he]

theorem fields?_record {names : List String} (hnodup : names.Nodup) {values : List Json}
    (hlength : names.length = values.length) :
    fields? .unknownIgnored names (record (names.zip values)) = some (values.map some) := by
  have hnames : (names.zip values).map (·.1) = names := List.map_fst_zip (by omega)
  have hvalues : (names.zip values).map (·.2) = values := List.map_snd_zip (by omega)
  have hfields : names.mapM (fun name => field? name (keyed (names.zip values))) =
      some (values.map some) := by
    have hentries := mapM_field? (names.zip values) (hnames.symm ▸ hnodup)
    rw [hnames] at hentries
    rw [hentries]
    conv_rhs => rw [← hvalues, List.map_map]
    rfl
  have hkeys : (keyed (names.zip values)).any (fun e => e.1.isNone) = false := by
    simp [keyed]
  simp [fields?, record_eq, hkeys, hfields]

theorem forall_mem_zip {names : List String} {values : List Json}
    (h : ∀ j ∈ values, IsProper j) : ∀ e ∈ names.zip values, IsProper e.2 :=
  fun _ he => h _ (List.of_mem_zip he).2

theorem isProper_optionalText (s : Option String) : IsProper (optionalText s) := by
  cases s with
  | none => exact .null
  | some s => exact .text s

theorem isProper_ofDouble (x : Double) : IsProper (ofDouble x) := by
  unfold ofDouble
  split
  case h_1 lexeme hlexeme => exact .number (isLexeme_of_json? hlexeme)
  case h_2 => exact .null

theorem ofDouble_of_read {x : Double} (h : x.isFinite = true)
    (hread : ∀ lexeme ∈ Decimal.json? x, double? lexeme = some x) :
    ∃ lexeme, ofDouble x = number lexeme ∧ double? lexeme = some x := by
  obtain ⟨lexeme, hlexeme⟩ := exists_json? h
  exact ⟨lexeme, by simp [ofDouble, hlexeme], hread lexeme hlexeme⟩

end Json

namespace Grading

def slotNumbers : Option Reported → List Double
  | some (.real x) => [x]
  | _ => []

def Outcome.numbers (o : Outcome) : List Double :=
  o.parameters.map (·.2) ++ o.results.flatMap slotNumbers

def Verdict.numbers (v : Verdict) : List Double := v.model.numbers ++ v.solution.numbers

structure IsKept (x : Double) : Prop where
  finite : x.isFinite = true
  read : ∀ lexeme ∈ Decimal.json? x, Json.double? lexeme = some x

theorem IsKept.double_ofDouble {x : Double} (h : IsKept x) :
    Json.double (Json.ofDouble x) = some x := by
  obtain ⟨lexeme, hlexeme, hread⟩ := Json.ofDouble_of_read h.finite h.read
  rw [hlexeme]
  exact hread

theorem optional?_slotToJson {slot : Option Reported} (h : ∀ x ∈ slotNumbers slot, IsKept x) :
    Json.optional? Reported.ofJson? (slotToJson slot) = some slot := by
  match slot with
  | none => rfl
  | some (.complex text) => rfl
  | some (.real x) =>
    have hx : IsKept x := h x (by simp [slotNumbers])
    obtain ⟨lexeme, hlexeme, hread⟩ := Json.ofDouble_of_read hx.finite hx.read
    simp [slotToJson, Reported.toJson, hlexeme, Json.optional?, Reported.ofJson?, hread]

theorem parametersOfJson?_toJson {parameters : List (String × Double)}
    (h : ∀ p ∈ parameters, IsKept p.2) :
    parametersOfJson? (parametersToJson parameters) = some parameters := by
  simp only [parametersToJson, Json.record, List.map_map, parametersOfJson?, List.mapM_map]
  refine (Json.mapM_eq_map (g := id) fun p hp => ?_).trans (by rw [List.map_id])
  simp [(h p hp).double_ofDouble]

/-! ### The documents themselves -/

theorem isProper_parametersToJson (parameters : List (String × Double)) :
    (parametersToJson parameters).IsProper := by
  refine .record fun e he => ?_
  obtain ⟨p, -, rfl⟩ := List.mem_map.1 he
  exact Json.isProper_ofDouble p.2

theorem isProper_slotToJson (slot : Option Reported) : (slotToJson slot).IsProper := by
  match slot with
  | none => exact .null
  | some (.complex text) => exact .text text
  | some (.real x) => exact Json.isProper_ofDouble x

namespace Outcome

theorem isProper_toJson (o : Outcome) : o.toJson.IsProper := by
  have htexts : ∀ texts : List (Option String),
      (Json.array (texts.map Json.optionalText)).IsProper :=
    fun texts => .array (List.forall_mem_map.2 fun s _ => Json.isProper_optionalText s)
  refine .record (Json.forall_mem_zip ?_)
  simp only [List.forall_mem_cons]
  exact ⟨.bool o.success, Json.isProper_optionalText o.errorMessage,
    .array (List.forall_mem_map.2 fun s _ => .text s), htexts o.expressions, htexts o.canonical,
    isProper_parametersToJson o.parameters,
    .array (List.forall_mem_map.2 fun slot _ => isProper_slotToJson slot), fun _ h => nomatch h⟩

theorem ofJson?_toJson {o : Outcome} (h : ∀ x ∈ o.numbers, IsKept x) :
    ofJson? o.toJson = some o := by
  have hparameters : parametersOfJson? (parametersToJson o.parameters) = some o.parameters :=
    parametersOfJson?_toJson fun p hp =>
      h p.2 (List.mem_append_left _ (List.mem_map_of_mem hp))
  have hresults : Json.list? (Json.optional? Reported.ofJson?)
      (.array (o.results.map slotToJson)) = some o.results :=
    Json.list?_array fun slot hslot => optional?_slotToJson fun x hx =>
      h x (List.mem_append_right _ (List.mem_flatMap.2 ⟨slot, hslot, hx⟩))
  have hsources : Json.list? Json.text? (.array (o.sources.map Json.text)) = some o.sources :=
    Json.list?_array fun _ _ => rfl
  have htexts : ∀ texts : List (Option String), Json.list? (Json.optional? Json.text?)
      (.array (texts.map Json.optionalText)) = some texts := fun texts =>
    Json.list?_array fun s _ => Json.optional?_optionalText s
  rw [ofJson?, toJson, Json.fields?_record (by decide) rfl]
  simp [Json.required, Json.nullable, Json.bool?, Json.optional?_optionalText, hsources, htexts,
    hparameters, hresults]

end Outcome

namespace Verdict

theorem isProper_toJson (v : Verdict) : v.toJson.IsProper := by
  refine .record (Json.forall_mem_zip ?_)
  simp only [List.forall_mem_cons]
  exact ⟨.bool v.success, .bool v.isEquivalent, Json.isProper_optionalText v.errorMessage,
    v.model.isProper_toJson, v.solution.isProper_toJson, fun _ h => nomatch h⟩

theorem ofJson?_toJson {v : Verdict} (h : ∀ x ∈ v.numbers, IsKept x) :
    ofJson? v.toJson = some v := by
  have hmodel := Outcome.ofJson?_toJson fun x hx => h x (List.mem_append_left _ hx)
  have hsolution := Outcome.ofJson?_toJson fun x hx => h x (List.mem_append_right _ hx)
  rw [ofJson?, toJson, Json.fields?_record (by decide) rfl]
  simp [Json.required, Json.nullable, Json.bool?, Json.optional?_optionalText, hmodel, hsolution]

end Verdict

/-- An outcome and a verdict whose numbers are finite are read back from their text,
in one line or laid out over lines. -/
theorem ofJson_read_write {write : Json → String}
    (hwrite : write = Json.compact ∨ write = Json.pretty) :
    (∀ {o : Outcome}, (∀ x ∈ o.numbers, x.isFinite = true) →
      (∀ x ∈ o.numbers, ∀ lexeme ∈ Decimal.json? x, Json.double? lexeme = some x) →
      (Json.read? (write o.toJson)).bind Outcome.ofJson? = some o) ∧
    ∀ {v : Verdict}, (∀ x ∈ v.numbers, x.isFinite = true) →
      (∀ x ∈ v.numbers, ∀ lexeme ∈ Decimal.json? x, Json.double? lexeme = some x) →
      (Json.read? (write v.toJson)).bind Verdict.ofJson? = some v := by
  have hread : ∀ {j : Json}, j.IsProper → Json.read? (write j) = some j := by
    intro j hj
    obtain rfl | rfl := hwrite
    · exact Json.read?_render Json.isBlank_compact hj
    · exact Json.read?_render Json.isBlank_pretty hj
  constructor
  · intro o hfinite hnumbers
    rw [hread o.isProper_toJson, Option.bind_some]
    exact Outcome.ofJson?_toJson fun x hx => ⟨hfinite x hx, hnumbers x hx⟩
  · intro v hfinite hnumbers
    rw [hread v.isProper_toJson, Option.bind_some]
    exact Verdict.ofJson?_toJson fun x hx => ⟨hfinite x hx, hnumbers x hx⟩

/-- Empty slots, a complex result, a zero with a minus, and texts with a quote, a
command and a control character. -/
theorem ofJson_read_write_mixed :
    let o : Outcome := ⟨false, some "member 2: \"\\frac\"\n\x01é", ["1", "x", "i"],
      [some "1", none, some "I"], [none, some "", none], [("b", 0.1), ("a", -0), ("b", 1e300)],
      [some (.real 12.5), none, some (.complex "(0+1j)")]⟩
    let v : Verdict := ⟨true, false, none, o, .failure "\t" []⟩
    (Json.read? o.toJson.pretty).bind Outcome.ofJson? = some o ∧
      (Json.read? v.toJson.compact).bind Verdict.ofJson? = some v :=
  ⟨(ofJson_read_write (.inr rfl)).1 (by decide +kernel) (by decide +kernel),
    (ofJson_read_write (.inl rfl)).2 (by decide +kernel) (by decide +kernel)⟩

end Grading

end AnswerKey

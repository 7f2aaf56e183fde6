import AnswerKey.Proofs.Answer.FalseBox

/-! When the answer that is isolated in a text has the members of the text. -/
namespace AnswerKey.Answer

open Lexeme (Reads row)

/-- No backslash loses the character that it stands with: neither the first
balanced box nor the end of the isolated answer comes after a backslash that
waits for one. -/
structure Intact (response : String) : Prop where
  box : ∀ before, beforeBox? response.toList = some before → Text.endsInEscape before = false
  edge : Text.endsInEscape (isolate response).toList = false

instance (response : String) : Decidable (Intact response) :=
  decidable_of_iff
    ((beforeBox? response.toList).all (fun before => !Text.endsInEscape before) = true ∧
      Text.endsInEscape (isolate response).toList = false)
    ⟨fun h => ⟨by simpa [Option.all_eq_true] using h.1, h.2⟩,
      fun h => ⟨by simpa [Option.all_eq_true] using h.box, h.edge⟩⟩

variable {declared : List String} {input : String} {members : List Member}

theorem read_isolate (h : Intact input) (hread : read declared input = .ok members)
    (hall : AllExpressions members) : read declared (isolate input) = .ok members := by
  obtain ⟨ls, -, -, hls, -⟩ := read_eq_ok.1 hread
  have hedge := h.edge
  cases hbox : firstBox? input.toList with
  | none =>
    have hisolate : isolate input = String.ofList (Text.trim input.toList) := by
      simp [isolate, hbox]
    rw [hisolate, String.toList_ofList] at hedge
    rw [hisolate]
    obtain ⟨ms, body, ns, rfl, hms, hns, hbody, -⟩ | hescape := hls.trim
    · rw [← hbody]
      exact read_of_silent hls hms hns hread hall
    · simp [hedge] at hescape
  | some contents =>
    have hisolate : isolate input = String.ofList (Text.trim contents) := by
      simp [isolate, hbox]
    rw [hisolate, String.toList_ofList] at hedge
    rw [hisolate]
    obtain ⟨pre, suf, hcs, hpre, hsuf⟩ := beforeBox?_eq_some hbox
    obtain ⟨word, hword, tail, -, rfl, -⟩ := boxHere?_eq_some hsuf
    obtain ⟨name, rfl⟩ : ∃ name, word = '\\' :: name := by
      simp only [boxCommands, List.mem_cons, List.not_mem_nil, or_false] at hword
      obtain rfl | rfl := hword <;> exact ⟨_, rfl⟩
    obtain ⟨before, after, -, rfl, -, hafter⟩ | ⟨-, -, htrue⟩ := hls.at_backslash hcs
    · have hreads := hls.of_suffix
      rw [hafter] at hreads
      obtain ⟨name, hname, gap, inner, ns, rfl, hgap, rfl, hpaired⟩ := exists_boxRow hreads hsuf
      have hinner : Reads (row inner) inner :=
        hreads.of_prefix.rest.of_suffix.rest.of_prefix
      obtain ⟨ms, body, ms', rfl, hms, hms', hbody, -⟩ | hescape := hinner.trim
      · rw [← hbody]
        exact read_of_boxRow hls hname hgap hpaired hms hms' hread hall
      · simp [hedge] at hescape
    · simp [h.box pre hpre] at htrue

theorem not_read_of_escape (h : Text.endsInEscape input.toList = true) :
    read declared input ≠ .ok members := by
  intro hread
  obtain ⟨ls, -, -, hls, -⟩ := read_eq_ok.1 hread
  rw [hls.endsInEscape] at h
  cases h

theorem sources_ne_of_not_intact (h : ¬Intact input) (hread : read declared input = .ok members)
    (hall : AllExpressions members) {members' : List Member}
    (hread' : read declared (isolate input) = .ok members') :
    members'.map (·.source) ≠ members.map (·.source) := by
  intro hsources
  refine h ⟨fun before hbefore => ?_, ?_⟩
  · refine Bool.eq_false_iff.2 fun hescape => ?_
    cases hbox : firstBox? input.toList with
    | none =>
      rw [beforeBox?_eq_none hbox] at hbefore
      cases hbefore
    | some contents =>
      obtain ⟨m, hm, hlong⟩ := exists_long_source hbox hbefore hescape hread hall
      have hmem : m.source ∈ members'.map (·.source) := hsources ▸ List.mem_map_of_mem hm
      obtain ⟨m', hm', hsource⟩ := List.mem_map.1 hmem
      have hshort := size_source_le hread' m' hm'
      have htrim := Text.size_trim_le contents
      simp only [isolate, hbox, Option.getD_some, String.toList_ofList, hsource] at hshort
      omega
  · refine Bool.eq_false_iff.2 fun hescape => ?_
    exact not_read_of_escape hescape hread'

end AnswerKey.Answer

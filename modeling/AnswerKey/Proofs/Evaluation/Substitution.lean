import AnswerKey.Proofs.Evaluation.Strays
import Mathlib

/-! Replacing declared names by their values changes no evaluation. -/
namespace AnswerKey

namespace Expr

variable {value? : String → Option Double}

def keeps (value? : String → Option Double) (m : Mention) : Bool :=
  m.isCall || m.around.contains m.name || (value? m.name).isNone

theorem mentions_substituteAll {bound : List String} {xs : List Expr}
    (ih : ∀ x ∈ xs, (x.substituteUnder value? bound).mentions bound =
      (x.mentions bound).filter (keeps value?)) :
    mentionsAll bound (substituteAll value? bound xs) =
      (mentionsAll bound xs).filter (keeps value?) := by
  induction xs with
  | nil => rfl
  | cons x rest ihr =>
    have hx := ih x List.mem_cons_self
    have hr := ihr fun y hy => ih y (List.mem_cons_of_mem x hy)
    simp only [substituteAll, mentionsAll, hx, hr, List.filter_append]

theorem mentions_substituteOption {bound : List String} {x? : Option Expr}
    (ih : ∀ x ∈ x?, (x.substituteUnder value? bound).mentions bound =
      (x.mentions bound).filter (keeps value?)) :
    mentionsOption bound (substituteOption value? bound x?) =
      (mentionsOption bound x?).filter (keeps value?) := by
  cases x? with
  | none => rfl
  | some x => exact ih x rfl

theorem mentions_substituteUnder {x : Expr} {bound : List String} :
    (x.substituteUnder value? bound).mentions bound =
      (x.mentions bound).filter (keeps value?) := by
  induction x using Expr.induct generalizing bound with
  | number x => rfl
  | symbol n =>
    by_cases hb : n ∈ bound
    · simp [substituteUnder, mentions, keeps, hb]
    · cases hv : value? n with
      | none => simp [substituteUnder, mentions, keeps, hb, hv]
      | some x => simp [substituteUnder, mentions, keeps, hb, hv]
  | binary _ _ _ hl hr | power _ _ hl hr | fraction _ _ hl hr | binomial _ _ hl hr
  | relation _ _ _ hl hr | limit _ _ _ _ hl hr =>
    simp only [substituteUnder, mentions, hl, hr, List.filter_append]
  | negated _ h | group _ h | factorial _ h => simp only [substituteUnder, mentions, h]
  | apply f args ih => exact mentions_substituteAll fun x hx => ih x hx
  | call n args ih =>
    have hall := mentions_substituteAll fun x hx => @ih x hx bound
    simp [substituteUnder, mentions, hall, keeps]
  | powered f e args he ih =>
    have hall := mentions_substituteAll fun x hx => @ih x hx bound
    simp only [substituteUnder, mentions, he, hall, List.filter_append]
  | aggregate _ _ _ _ _ hl hu hb =>
    simp only [substituteUnder, mentions, hl, hu, hb, List.filter_append]
  | integral _ _ _ _ hl hu hb =>
    have hl := mentions_substituteOption fun x hx => @hl x hx bound
    have hu := mentions_substituteOption fun x hx => @hu x hx bound
    simp only [substituteUnder, mentions, hl, hu, hb, List.filter_append]

end Expr

open Evaluation

namespace Expr

variable {b : Binding} {options : Options}

theorem lookup_empty {scopes : Scopes} {name : String} (h : b.get? name = none) :
    lookup ⟨[]⟩ scopes name = lookup b scopes name := by
  have hn : (⟨[]⟩ : Binding).get? name = none := rfl
  simp only [lookup, h, hn]

theorem lookup_of_not_mem {scopes : Scopes} {name : String} (h : name ∉ scopes.map (·.1)) :
    scopes.lookup name = none := by
  rw [List.lookup_eq_none_iff]
  intro p hp
  exact bne_iff_ne.2 fun hn => h (List.mem_map.2 ⟨p, hp, hn.symm⟩)

theorem lookup_of_mem {scopes : Scopes} {name : String} (h : name ∈ scopes.map (·.1)) :
    ∃ v, scopes.lookup name = some v := by
  cases hl : scopes.lookup name with
  | some v => exact ⟨v, rfl⟩
  | none =>
    obtain ⟨p, hp, hn⟩ := List.mem_map.1 h
    have := List.lookup_eq_none_iff.1 hl p hp
    simp [hn] at this

theorem evalAll_substituteAll {scopes : Scopes} {xs : List Expr}
    (ih : ∀ x ∈ xs, (x.substituteUnder b.get? (scopes.map (·.1))).eval ⟨[]⟩ options scopes =
      x.eval b options scopes) :
    evalAll ⟨[]⟩ options scopes (substituteAll b.get? (scopes.map (·.1)) xs) =
      evalAll b options scopes xs := by
  induction xs with
  | nil => rfl
  | cons x rest ihr =>
    have hx := ih x List.mem_cons_self
    have hr := ihr fun y hy => ih y (List.mem_cons_of_mem x hy)
    simp only [substituteAll, evalAll, hx, hr]

/-- Within the scopes of the bound names, an expression with its other names
replaced has the value of the expression. -/
theorem eval_substituteUnder {x : Expr} {scopes : Scopes} :
    (x.substituteUnder b.get? (scopes.map (·.1))).eval ⟨[]⟩ options scopes =
      x.eval b options scopes := by
  induction x using Expr.induct generalizing scopes with
  | number x => rfl
  | symbol n =>
    -- A bound name is kept, so what is put in for a name is only what the binding has.
    by_cases hb : n ∈ scopes.map (·.1)
    · obtain ⟨v, hv⟩ := lookup_of_mem hb
      simp [substituteUnder, hb, eval, lookup, hv]
    · have hs := lookup_of_not_mem hb
      cases hv : b.get? n with
      | none => simp [substituteUnder, hb, hv, eval, lookup_empty hv]
      | some x => simp [substituteUnder, hb, hv, eval, lookup, hs]
  | binary _ _ _ hl hr | power _ _ hl hr | fraction _ _ hl hr | binomial _ _ hl hr =>
    simp only [substituteUnder, eval, hl, hr]
  | negated _ h | group _ h | factorial _ h => simp only [substituteUnder, eval, h]
  | apply f args ih =>
    have hall := evalAll_substituteAll fun x hx => @ih x hx scopes
    simp only [substituteUnder, eval, hall]
  | call n args _ => rfl
  | powered f e args he ih =>
    have hall := evalAll_substituteAll fun x hx => @ih x hx scopes
    simp only [substituteUnder, eval, he, hall]
  | aggregate kind name lower upper body hl hu hb =>
    have body (v : Value) := @hb ((name, v) :: scopes)
    simp only [List.map_cons] at body
    simp only [substituteUnder, eval, hl, hu, body]
  | integral lower upper integrand name hl hu hb =>
    have body (v : Value) := @hb ((name, v) :: scopes)
    simp only [List.map_cons] at body
    cases lower with
    | none => rfl
    | some l =>
      cases upper with
      | none => rfl
      | some u =>
        have hl := @hl l rfl scopes
        have hu := @hu u rfl scopes
        simp only [substituteUnder, substituteOption, eval, hl, hu, body]
  | limit name approach side body ha hb =>
    have body (v : Value) := @hb ((name, v) :: scopes)
    simp only [List.map_cons] at body
    simp only [substituteUnder, eval, ha, body]
  | relation _ _ _ _ _ => rfl

theorem strays_substitute {x : Expr} {name : String}
    (hc : x.CallsOnly fun name => Grammar.callable b.names name = true) :
    (x.substitute b.get?).Strays ⟨[]⟩ name ↔ x.Strays b name := by
  simp only [Strays, substitute, mentions_substituteUnder, List.mem_filter]
  constructor
  · rintro ⟨⟨m, ⟨hm, hk⟩, rfl, hf⟩, -, hconst⟩
    refine ⟨⟨m, hm, rfl, hf⟩, ?_, hconst⟩
    simp only [keeps, Bool.or_eq_true, Option.isNone_iff_eq_none] at hk
    rcases hk with (hcall | ha) | hv
    · exact (Binding.unknown_of_callable (hc [] m hm hcall)).1
    · exact absurd (by simpa using ha) hf
    · exact hv
  · rintro ⟨⟨m, hm, rfl, hf⟩, hv, hconst⟩
    exact ⟨⟨m, ⟨hm, by simp [keeps, hv]⟩, rfl, hf⟩, rfl, hconst⟩

theorem target_substitute {x : Expr} :
    (x.substitute value?).target = x.target.map (substitute value?) := by
  cases x with
  | relation r left right => cases r <;> rfl
  | symbol n =>
    cases hv : value? n <;> simp [substitute, substituteUnder, hv, target, Except.map]
  | _ => rfl

theorem evaluate_substitute {x : Expr}
    (hc : x.CallsOnly fun name => Grammar.callable b.names name = true) :
    (x.substitute b.get?).evaluate ⟨[]⟩ options = x.evaluate b options := by
  simp only [evaluate, target_substitute]
  cases ht : x.target with
  | error e => rfl
  | ok t =>
    have hcheck : (⟨[]⟩ : Binding).check (t.substitute b.get?) = b.check t :=
      Binding.check_congr fun name => strays_substitute (hc.of_target ht)
    have heval : (t.substitute b.get?).eval ⟨[]⟩ options [] = t.eval b options [] :=
      @eval_substituteUnder b options t []
    simp only [Except.map, bind, Except.bind, hcheck, heval]

end Expr

/-- An expression that was read under the names of a binding has, with the
values put in, the same evaluation under no binding: the same value, or the same
error. -/
theorem Answer.evaluate_substitute_read {b : Binding} {options : Options} {latex : String}
    {members : List Member} {m : Member} {x : Expr}
    (h : Answer.read b.names latex = .ok members) (hm : m ∈ members) (hx : m.expr = .ok x) :
    (x.substitute b.get?).evaluate ⟨[]⟩ options = x.evaluate b options :=
  Expr.evaluate_substitute (callsOnly_of_read h hm hx)

/-- A declared name that hides a constant, next to a name without a value. -/
theorem Answer.evaluate_substitute_power :
    ((Expr.power (.symbol "e") (.symbol "y")).substitute
        (⟨[("e", 3)]⟩ : Binding).get?).evaluate ⟨[]⟩ {} =
      (Expr.power (.symbol "e") (.symbol "y")).evaluate ⟨[("e", 3)]⟩ {} := by
  have h : Answer.read ["e"] "e^y" =
      .ok [⟨"e^y", .ok (.power (.symbol "e") (.symbol "y"))⟩] := by cbv
  exact evaluate_substitute_read h List.mem_cons_self rfl

end AnswerKey

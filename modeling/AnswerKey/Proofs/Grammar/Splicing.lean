import AnswerKey.Proofs.Answer.Boxing

/-! Two texts that start alike and part behind a script mark, where one has
braces around a digit and the other has not. -/
namespace AnswerKey

def Token.Kind.opensScript : Token.Kind → Bool
  | .caret | .underscore | .sqrt | .frac | .binom => true
  | _ => false

namespace Grammar

open Answer (Paired bracesAfter bracesAfter_append bracesAfter_closing bracesAfter_congr
  bracesAfter_opening)
open Cursor (Alike AlikeFrom Passes)

/-- Tokens that end where a script or an argument of a fraction may stand: behind
a mark, or behind the first argument of a fraction. -/
inductive ScriptPlace : List Token → Prop
  | mark {t : Token} (opens : t.kind.opensScript = true) : ScriptPlace [t]
  | behindDigit {t u : Token} {digit : Char} (fraction : t.kind = .frac ∨ t.kind = .binom)
      (number : u.kind = .number) (text : u.text.toList = [digit])
      (isDigit : digit.isDigit = true) : ScriptPlace [t, u]
  | behindBraces {t opened closed : Token} {inner : List Token}
      (fraction : t.kind = .frac ∨ t.kind = .binom) (ho : opened.kind = .opening .curly)
      (paired : Paired inner) (hc : closed.kind = .closing .curly) :
      ScriptPlace (t :: opened :: (inner ++ [closed]))
  | later {t : Token} {ts : List Token} (h : ScriptPlace ts) : ScriptPlace (t :: ts)

theorem ScriptPlace.ne_nil {ts : List Token} (h : ScriptPlace ts) : ts ≠ [] := by
  cases h <;> simp

theorem ScriptPlace.of_cons {t : Token} {ts : List Token} (h : ScriptPlace (t :: ts))
    (other : t.kind.opensScript = false) : ScriptPlace ts := by
  cases h with
  | mark opens => simp [opens] at other
  | behindDigit fraction | behindBraces fraction =>
    rcases fraction with hk | hk <;> simp [hk, Token.Kind.opensScript] at other
  | later h => exact h

def ClosesAll (ts : List Token) : Prop := ∃ depth, bracesAfter depth ts = some 0

theorem ClosesAll.tail {t : Token} {ts : List Token} (h : ClosesAll (t :: ts)) : ClosesAll ts := by
  obtain ⟨depth, h⟩ := h
  simp only [bracesAfter] at h
  split at h
  · exact ⟨_, h⟩
  · cases h
  · exact ⟨_, h⟩
  · exact ⟨_, h⟩

theorem ScriptPlace.not_closesAll {ts : List Token} {closed : Token}
    (h : ScriptPlace (ts ++ [closed])) (hc : closed.kind = .closing .curly) : ¬ClosesAll ts := by
  generalize hts : ts ++ [closed] = us at h
  induction h generalizing ts with
  | @mark t opens =>
    obtain rfl : closed = t := by simpa using congrArg List.getLast? hts
    simp [hc, Token.Kind.opensScript] at opens
  | @behindDigit t u digit fraction number text isDigit =>
    obtain rfl : closed = u := by simpa using congrArg List.getLast? hts
    simp [hc] at number
  | @behindBraces t opened e inner fraction ho paired he =>
    rw [← List.cons_append, ← List.cons_append] at hts
    obtain ⟨rfl, -⟩ := List.append_inj' hts rfl
    have plain : t.kind.isPlain = true := by rcases fraction with hk | hk <;> rw [hk] <;> rfl
    rintro ⟨depth, h⟩
    simp [Answer.bracesAfter_plain plain, bracesAfter_opening ho, paired (depth + 1)] at h
  | @later t us place ih =>
    cases ts with
    | nil =>
      obtain ⟨-, rfl⟩ := List.cons.inj hts
      exact absurd rfl place.ne_nil
    | cons v ts => exact fun h => ih (List.cons.inj hts).2 h.tail

/-- Tokens up to where two texts part, and what may stand there: they end at a
script place, or at the end of a fraction's first argument from inside of it. -/
inductive Ahead (bound : Nat) : List Token → Prop
  | place {ts : List Token} (h : ScriptPlace ts) (bounded : ∀ t ∈ ts, t.stop ≤ bound) :
      Ahead bound ts
  | inside {inner : List Token} {closed : Token} (closes : ClosesAll inner)
      (hc : closed.kind = .closing .curly) (bounded : closed.stop ≤ bound) :
      Ahead bound (inner ++ [closed])

namespace Ahead

variable {bound : Nat} {t u : Token} {ts : List Token}

theorem ne_nil (h : Ahead bound ts) : ts ≠ [] := by
  cases h with
  | place h => exact h.ne_nil
  | inside => simp

theorem cases_cons (h : Ahead bound (t :: ts)) :
    (ScriptPlace (t :: ts) ∧ ∀ u ∈ t :: ts, u.stop ≤ bound) ∨
    (t.kind = .closing .curly ∧ ts = [] ∧ t.stop ≤ bound) ∨
    ∃ inner closed, ts = inner ++ [closed] ∧ ClosesAll (t :: inner) ∧
      closed.kind = .closing .curly ∧ closed.stop ≤ bound := by
  generalize hts : t :: ts = us at h
  cases h with
  | place h bounded =>
    subst hts
    exact .inl ⟨h, bounded⟩
  | @inside inner closed closes hc bounded =>
    cases inner with
    | nil =>
      obtain ⟨rfl, rfl⟩ := List.cons.inj hts
      exact .inr (.inl ⟨hc, rfl, bounded⟩)
    | cons u inner =>
      obtain ⟨rfl, rfl⟩ := List.cons.inj hts
      exact .inr (.inr ⟨inner, closed, rfl, closes, hc, bounded⟩)

theorem stop_le (h : Ahead bound [t]) : t.stop ≤ bound := by
  obtain ⟨-, bounded⟩ | ⟨-, -, bounded⟩ | ⟨inner, closed, hts, -⟩ := h.cases_cons
  · exact bounded t List.mem_cons_self
  · exact bounded
  · simp at hts

theorem later (h : ScriptPlace ts) (bounded : ∀ u ∈ t :: ts, u.stop ≤ bound) : Ahead bound ts :=
  .place h fun u hu => bounded u (List.mem_cons_of_mem t hu)

theorem cases_further (h : Ahead bound (t :: ts)) (other : t.kind.opensScript = false)
    (unclosed : ts ≠ [] ∨ t.kind ≠ .closing .curly) :
    (ScriptPlace ts ∧ ∀ u ∈ t :: ts, u.stop ≤ bound) ∨
    ∃ inner closed, ts = inner ++ [closed] ∧ ClosesAll (t :: inner) ∧
      closed.kind = .closing .curly ∧ closed.stop ≤ bound := by
  obtain ⟨place, bounded⟩ | ⟨hc, rfl, -⟩ | inside := h.cases_cons
  · exact .inl ⟨place.of_cons other, bounded⟩
  · simp [hc] at unclosed
  · exact .inr inside

theorem next (h : Ahead bound (t :: ts)) (other : t.kind.opensScript = false)
    (unclosed : ts ≠ [] ∨ t.kind ≠ .closing .curly) : Ahead bound ts := by
  obtain ⟨place, bounded⟩ | ⟨inner, closed, rfl, closes, hc, bounded⟩ :=
    h.cases_further other unclosed
  · exact .later place bounded
  · exact .inside closes.tail hc bounded

theorem taken (h : Ahead bound (t :: ts)) (ht : t.kind = .number) (hu : u.kind = .number)
    (stop : u.stop = t.stop) : Ahead bound (u :: ts) := by
  obtain ⟨place, bounded⟩ | ⟨inner, closed, rfl, closes, hc, bounded⟩ :=
    h.cases_further (by rw [ht]; rfl) (by simp [ht])
  · exact .place (.later place) (by simpa [stop] using bounded)
  · rw [← List.cons_append]
    obtain ⟨depth, closes⟩ := closes
    have same : bracesAfter depth (u :: inner) = bracesAfter depth (t :: inner) :=
      bracesAfter_congr (by simp [ht, hu])
    exact .inside ⟨depth, same.trans closes⟩ hc bounded

end Ahead

/-- Two continuations that are read alike behind a script mark: behind the digit
there, which one of them has in braces, they go on alike. -/
structure Splice where
  left : List Token
  right : List Token
  bound : Nat
  scripts {p limit limit' : Nat} (h : p ≤ bound) :
    Scripts (fun c d => Alike [] 1 c d ∧ c.tokens.length ≤ left.length)
      ⟨left, some p, limit⟩ ⟨right, some p, limit'⟩

namespace Splice

variable {s : Splice} {declared : List String} {c d m c' d' : Cursor} {closed : Token}
  {ts : List Token} {k : Token.Kind}

/-- No argument without brackets is open where the texts part, in one of them at least. -/
def Shut (s : Splice) (declared : List String) (c d : Cursor) : Prop :=
  ¬(HasArgument declared (OpenAt s.left) c ∧ HasArgument declared (OpenAt s.right) d)

theorem Shut.next (h : s.Shut declared c d) : s.Shut declared c.next d.next :=
  fun ⟨hc, hd⟩ => h ⟨.later hc, .later hd⟩

theorem Shut.takeDigit {digit : String} (h : s.Shut declared c d)
    (taken : c.takeDigit? = some (digit, c')) (taken' : d.takeDigit? = some (digit, d')) :
    s.Shut declared c' d' :=
  fun ⟨hc, hd⟩ => h ⟨hc.of_takeDigit taken, hd.of_takeDigit taken'⟩

/-- Cursors at the same place in front of where the texts part, or behind it. -/
inductive Rel (s : Splice) (declared : List String) : Cursor → Cursor → Prop
  | ahead {t : Token} {ts : List Token} {p : Option Nat} {limit limit' : Nat}
      (h : Ahead s.bound (t :: ts))
      (shut : s.Shut declared ⟨t :: (ts ++ s.left), p, limit⟩ ⟨t :: (ts ++ s.right), p, limit'⟩) :
      Rel s declared ⟨t :: (ts ++ s.left), p, limit⟩ ⟨t :: (ts ++ s.right), p, limit'⟩
  | behind {c d : Cursor} (alike : Alike [] 1 c d) (short : c.tokens.length ≤ s.left.length) :
      Rel s declared c d

namespace Rel

theorem ofAhead {p : Option Nat} {limit limit' : Nat} (h : Ahead s.bound ts)
    (shut : s.Shut declared ⟨ts ++ s.left, p, limit⟩ ⟨ts ++ s.right, p, limit'⟩) :
    s.Rel declared ⟨ts ++ s.left, p, limit⟩ ⟨ts ++ s.right, p, limit'⟩ ∧
      Tight ⟨ts ++ s.left, p, limit⟩ ⟨ts ++ s.right, p, limit'⟩ := by
  obtain ⟨t, us, rfl⟩ := List.exists_cons_of_ne_nil h.ne_nil
  exact ⟨.ahead h shut, fun _ => by cases p <;> rfl⟩

theorem next_behind (alike : Alike [] 1 c d) (short : c.tokens.length ≤ s.left.length)
    (here : c.kind = some k) : s.Rel declared c.next d.next ∧ Tight c.next d.next :=
  ⟨.behind ((alike.next here).mono (Nat.zero_le 1)) (Nat.le_trans c.length_next_le short),
    (alike.next here).touchesPrevious⟩

theorem parted {p limit limit' : Nat} (h : p ≤ s.bound) :
    Scripts (s.Rel declared) ⟨s.left, some p, limit⟩ ⟨s.right, some p, limit'⟩ :=
  (s.scripts h).mono fun _ _ ⟨alike, short⟩ => .behind alike short

theorem next (h : s.Rel declared c d) (here : c.kind = some k) (step : k.isStep = true) :
    s.Rel declared c.next d.next ∧ Tight c.next d.next := by
  cases h with
  | @ahead t ts p limit limit' h shut =>
    obtain rfl : t.kind = k := Option.some.inj here
    have other : t.kind.opensScript = false := by
      cases hk : t.kind <;> simp_all [Token.Kind.opensScript, Token.Kind.isStep]
    have unclosed : t.kind ≠ .closing .curly := by
      intro hk
      simp [hk, Token.Kind.isStep] at step
    exact ofAhead (h.next other (.inr unclosed)) shut.next
  | behind alike short => exact next_behind alike short here

theorem not_openAt {first first' : Cursor} {f : Builtin} (h : s.Rel declared c d)
    (here : c.kind = some (.function f)) (argument : ArgumentFrom declared f c.next first)
    (argument' : ArgumentFrom declared f d.next first') :
    ¬(OpenAt s.left first ∧ OpenAt s.right first') := by
  rintro ⟨hfirst, hfirst'⟩
  cases h with
  | ahead _ shut => exact shut ⟨.here here argument hfirst, .here here argument' hfirst'⟩
  | behind _ short =>
    have := hfirst.length_le
    have := argument.passes.length_le
    have := c.length_next_le
    omega

/-- The brace behind a fraction's first argument closes none that was opened in
front of the fraction or inside of the argument. -/
theorem ne_closing (h : s.Rel declared c d) (opened : c.kind = some (.opening .curly))
    (inside : Passes c.next m) (hc : closed.kind = .closing .curly) :
    m.tokens ≠ closed :: s.left := by
  intro hm
  obtain ⟨us, paired, kinds⟩ := inside.paired
  cases h with
  | @ahead t ts p limit limit' h =>
    have ht : t.kind = .opening .curly := Option.some.inj opened
    have front : ts.map (·.kind) = us.map (·.kind) ++ [.closing .curly] := by
      rw [hm] at kinds
      change (ts ++ s.left).map (·.kind) = _ at kinds
      refine (List.append_left_inj (s.left.map (·.kind))).1 ?_
      simpa [hc] using kinds
    have level {inner : List Token} (h : inner.map (·.kind) = us.map (·.kind)) (depth : Nat) :
        bracesAfter depth inner = some depth := (bracesAfter_congr h).trans (paired depth)
    obtain ⟨place, -⟩ | ⟨inner, last, rfl, ⟨depth, closes⟩, -⟩ :=
      h.cases_further (by rw [ht]; rfl) (by simp [ht])
    · obtain ⟨inner, last, rfl⟩ : ∃ inner last, ts = inner ++ [last] :=
        ⟨_, _, (List.dropLast_concat_getLast place.ne_nil).symm⟩
      rw [List.map_append] at front
      obtain ⟨hinner, hlast⟩ := List.append_inj' front rfl
      exact place.not_closesAll (List.cons.inj hlast).1 ⟨0, level hinner 0⟩
    · rw [List.map_append] at front
      obtain ⟨hinner, -⟩ := List.append_inj' front rfl
      simp [bracesAfter_opening ht, level hinner] at closes
  | behind alike short =>
    have := congrArg List.length kinds
    have := c.length_next_le
    simp only [hm, List.length_map, List.length_append, List.length_cons] at *
    omega

theorem enclosed {m' : Cursor} (h : s.Rel declared c d) (opened : c.kind = some (.opening .curly))
    (inside : Passes c.next m) (closed : m.kind = some (.closing .curly))
    (hm : s.Rel declared m m') : s.Rel declared m.next m'.next ∧ Tight m.next m'.next := by
  cases hm with
  | @ahead t ts p limit limit' hm shut =>
    have ht : t.kind = .closing .curly := Option.some.inj closed
    refine ofAhead (hm.next (by rw [ht]; rfl) (.inl ?_)) shut.next
    rintro rfl
    exact h.ne_closing opened inside ht rfl
  | behind alike short => exact next_behind alike short closed

theorem digit {digit : String} (h : s.Rel declared c d)
    (taken : c.takeDigit? = some (digit, c')) :
    ∃ d', d.takeDigit? = some (digit, d') ∧ s.Rel declared c' d' ∧ Tight c' d' := by
  cases h with
  | @ahead t ts p limit limit' h shut =>
    cases Cursor.takeDigit_eq_some.1 taken with
    | last here number text isDigit =>
      obtain ⟨rfl, rfl⟩ := List.cons.inj here
      exact ⟨_, Cursor.takeDigit_eq_some.2 (.last rfl number text isDigit),
        ofAhead (h.next (by rw [number]; rfl) (by simp [number])) shut.next⟩
    | @more _ _ _ others here number text isDigit left =>
      obtain ⟨rfl, rfl⟩ := List.cons.inj here
      let rest : Token := { t with text := String.ofList others, start := t.start + 1 }
      have h : Ahead s.bound (rest :: ts) := h.taken number number rfl
      have taken' := Cursor.takeDigit_eq_some.2 (.more (c := ⟨t :: (ts ++ s.right), p, limit'⟩)
        rfl number text isDigit left)
      exact ⟨_, taken', ofAhead h (shut.takeDigit taken taken')⟩
  | behind alike short =>
    obtain ⟨d', hd, hr⟩ := alike.takeDigit taken
    refine ⟨d', hd, .behind (hr.mono (Nat.zero_le 1)) ?_, hr.touchesPrevious⟩
    exact Nat.le_trans (Cursor.length_of_takeDigit taken) short

theorem mark (h : s.Rel declared c d) (here : c.kind = some k)
    (script : k = .caret ∨ k = .underscore ∨ k = .sqrt) :
    Scripts (s.Rel declared) c.next d.next := by
  cases h with
  | @ahead t ts p limit limit' h shut =>
    obtain rfl : t.kind = k := Option.some.inj here
    obtain ⟨place, bounded⟩ | ⟨hc, -⟩ | ⟨inner, last, rfl, closes, hlast, hstop⟩ := h.cases_cons
    · cases place with
      | mark opens => exact parted (bounded t List.mem_cons_self)
      | behindDigit fraction | behindBraces fraction =>
        rcases fraction with hk | hk <;> simp [hk] at script
      | later place => exact .same (ofAhead (.later place bounded) shut.next).1
    · simp [hc] at script
    · exact .same (ofAhead (.inside closes.tail hlast hstop) shut.next).1
  | behind alike short => exact .same (next_behind alike short here).1

/-- A subscript that ends where the texts part is flush with what stands behind it
in one of them only, so no argument without brackets may hold it. -/
theorem below {bare : Bool} (h : s.Rel declared c d)
    (hi : bare = true → ¬(RunsTo s.left c ∧ RunsTo s.right d)) (here : c.kind = some .symbol)
    (mark : c.next.kind = some .underscore) :
    Scripts (fun c d => s.Rel declared c d ∧ (bare = true → Tight c d)) c.next.next
      d.next.next := by
  have tight {c d : Cursor} (h : s.Rel declared c d ∧ Tight c d) :
      s.Rel declared c d ∧ (bare = true → Tight c d) := ⟨h.1, fun _ => h.2⟩
  cases h with
  | @ahead t ts p limit limit' h shut =>
    have ht : t.kind = .symbol := Option.some.inj here
    obtain ⟨place, bounded⟩ | ⟨inner, closed, rfl, closes, hc, hstop⟩ :=
      h.cases_further (by rw [ht]; rfl) (by simp [ht])
    · cases place with
      | @mark u opens =>
        -- The texts part at this very mark, which no bare argument may run to.
        have hu : u.kind = .underscore := Option.some.inj mark
        exact Scripts.mono (s.scripts (bounded u (by simp))) fun _ _ ⟨alike, short⟩ =>
          ⟨.behind alike short, fun hb => absurd ⟨.here rfl ht hu, .here rfl ht hu⟩ (hi hb)⟩
      | behindDigit fraction | behindBraces fraction =>
        have hu := Option.some.inj mark
        simp [hu] at fraction
      | later place =>
        have behind := Ahead.later place fun v hv => bounded v (List.mem_cons_of_mem t hv)
        exact .same (tight (ofAhead behind shut.next.next))
    · cases inner with
      | nil =>
        have hu : closed.kind = .underscore := Option.some.inj mark
        simp [hc] at hu
      | cons u inner =>
        exact .same (tight (ofAhead (.inside closes.tail.tail hc hstop) shut.next.next))
  | behind alike short =>
    have short := Nat.le_trans c.length_next_le short
    exact .same (tight (next_behind ((alike.next here).mono (Nat.zero_le 1)) short mark))

theorem fork (h : s.Rel declared c d) (here : c.kind = some k)
    (fraction : k = .frac ∨ k = .binom) : Forks (s.Rel declared) c.next d.next := by
  cases h with
  | @ahead t ts p limit limit' h shut =>
    obtain rfl : t.kind = k := Option.some.inj here
    obtain ⟨place, bounded⟩ | ⟨hc, -⟩ | ⟨inner, last, rfl, closes, hlast, hstop⟩ := h.cases_cons
    · cases place with
      | mark opens => exact .first (parted (bounded t List.mem_cons_self))
      | @behindDigit _ u digit _ number text isDigit =>
        exact .afterDigit (Cursor.takeDigit_eq_some.2 (.last rfl number text isDigit))
          (Cursor.takeDigit_eq_some.2 (.last rfl number text isDigit))
          (parted (bounded u (by simp)))
      | @behindBraces _ opened closed inner _ ho paired hc =>
        have hstop := bounded closed (by simp)
        refine .afterBraces (congrArg some ho) (congrArg some ho)
          (ofAhead (.inside ⟨0, paired 0⟩ hc hstop) shut.next.next).1 fun m m' _ closes hm => ?_
        cases hm with
        | @ahead v vs p limit limit' hm shut =>
          have hv : v.kind = .closing .curly := Option.some.inj closes
          cases vs with
          | nil => exact parted hm.stop_le
          | cons =>
            exact .same (ofAhead (hm.next (by rw [hv]; rfl) (.inl (by simp))) shut.next).1
        | behind alike short => exact .same (next_behind alike short closes).1
      | later place => exact .first (.same (ofAhead (.later place bounded) shut.next).1)
    · simp [hc] at fraction
    · exact .first (.same (ofAhead (.inside closes.tail hlast hstop) shut.next).1)
  | behind alike short => exact .first (.same (next_behind alike short here).1)

end Rel

def pairing (s : Splice) (declared : List String) : Pairing declared where
  rel := s.Rel declared
  starts c d := ¬(OpenAt s.left c ∧ OpenAt s.right d)
  inside c d := ¬(RunsTo s.left c ∧ RunsTo s.right d)
  tail := []
  ending := nofun
  ended h hc := by
    cases h with
    | ahead => cases hc
    | behind alike => exact alike.tokens_eq_tail hc
  kind h here := by
    cases h with
    | ahead => exact here
    | behind alike => exact alike.kind here
  text h here := by
    cases h with
    | ahead => rfl
    | behind alike => exact alike.text here
  next h here step := h.next here step
  word h here argument argument' := h.not_openAt here argument argument'
  free _ _ _ _ := nofun
  sign h here here' := fun ⟨hc, hd⟩ => h ⟨.sign here hc, .sign here' hd⟩
  factor h := fun ⟨hc, hd⟩ => h ⟨.run hc, .run hd⟩
  flush h first first' touch touch' :=
    fun ⟨hc, hd⟩ => h ⟨.factor first touch hc, .factor first' touch' hd⟩
  enclosed h opened inside closed hm := h.enclosed opened inside closed hm
  digit h taken := h.digit taken
  mark h here script := h.mark here script
  below h hi here mark := h.below hi here mark
  fork h here fraction := h.fork here fraction

end Splice

end Grammar

open Grammar (ScriptPlace Splice)

/-- What is written in front of one continuation is written in front of the other
one too. -/
theorem Formula.ofTokens_of_splice {declared : List String} {ts : List Token} {x : Formula}
    {limit limit' : Nat} (s : Splice) (place : ScriptPlace ts)
    (bounded : ∀ t ∈ ts, t.stop ≤ s.bound)
    (shut : s.Shut declared (.start (ts ++ s.left) limit) (.start (ts ++ s.right) limit'))
    (hx : ofTokens declared (ts ++ s.left) limit = .ok x) :
    ofTokens declared (ts ++ s.right) limit' = .ok x := by
  have related : (s.pairing declared).rel (Cursor.start (ts ++ s.left) limit)
      (Cursor.start (ts ++ s.right) limit') :=
    (Splice.Rel.ofAhead (.place place bounded) shut).1
  obtain ⟨last, hm, hl⟩ := (s.pairing declared).member_of_ofTokens
    (fun y => ⟨⟨⟨⟨nofun, nofun⟩, nofun⟩, nofun⟩, fun _ _ _ => nofun⟩) related hx
  exact ofTokens_eq_ok_full.2 ⟨last, hm, hl⟩

end AnswerKey

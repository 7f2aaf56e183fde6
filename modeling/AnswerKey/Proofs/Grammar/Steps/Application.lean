import AnswerKey.Proofs.Grammar.Steps.Name

/-! Successful readings of brackets, operands, roots, bars and applications. -/
namespace AnswerKey.Grammar

variable {g : Rules} {mode : Mode} {c c' : Cursor} {x : Formula} {d : Delimiter} {f : Builtin}

theorem bracketed_eq_ok : bracketed g d c = .ok (x, c') ↔
    ∃ after, g.sum .plain c = .ok (x, after) ∧ after.kind = some (.closing d) ∧
      after.next = c' := by
  simp [bracketed, Cursor.expect_eq_ok, and_comm, and_assoc]

theorem group_eq_ok : group g d c = .ok (x, c') ↔
    ∃ inner, bracketed g d c.next = .ok (inner, c') ∧ .group inner = x := by
  simp [group]

inductive SymbolOrCallStep (g : Rules) (c : Cursor) : Formula → Cursor → Prop
  | call {name : String} {args : List Formula} {after last : Cursor}
      (named : symbolName c = .ok (name, after)) (opened : after.kind = some (.opening .round))
      (allowed : callable g.declared name)
      (inside : g.arguments .round after.next = .ok (args, last)) :
      SymbolOrCallStep g c (.call name args) last
  | symbol {name : String} {after : Cursor} (named : symbolName c = .ok (name, after))
      (other : ¬(after.kind = some (.opening .round) ∧ callable g.declared name)) :
      SymbolOrCallStep g c (.symbol name) after

theorem symbolOrCall_eq_ok : symbolOrCall g c = .ok (x, c') ↔ SymbolOrCallStep g c x c' := by
  constructor
  · intro h
    simp only [symbolOrCall, bind_eq_ok, lift_eq_ok, Prod.exists] at h
    obtain ⟨name, after, hn, h⟩ := h
    split at h
    · next ha =>
      simp only [bind_eq_ok, Prod.exists, pure_eq_ok, Prod.mk.injEq] at h
      obtain ⟨args, last, hi, rfl, rfl⟩ := h
      simp only [Bool.and_eq_true, decide_eq_true_eq] at ha
      exact .call hn ha.1 ha.2 hi
    · next ha =>
      obtain ⟨rfl, rfl⟩ : .symbol name = x ∧ after = c' := by simpa using h
      exact .symbol hn (by simpa using ha)
  · intro h
    cases h with
    | call named opened allowed inside => simp [symbolOrCall, named, opened, allowed, inside]
    | symbol named other =>
      simp only [symbolOrCall, bind_eq_ok, lift_eq_ok, Prod.exists]
      exact ⟨_, _, named, by rw [if_neg (by simpa using other)]; rfl⟩

inductive OperandStep (g : Rules) (allowSymbol : Bool) (c : Cursor) : Formula → Cursor → Prop
  | braced {inner : Formula} {after : Cursor} (opened : c.kind = some (.opening .curly))
      (inside : bracketed g .curly c.next = .ok (inner, after)) :
      OperandStep g allowSymbol c inner after
  | digit {name : String} {after : Cursor} (taken : c.takeDigit? = some (name, after)) :
      OperandStep g allowSymbol c (.number name) after
  | symbol (allowed : allowSymbol = true) (here : c.kind = some .symbol) :
      OperandStep g allowSymbol c (.symbol c.text) c.next
  | infinity (allowed : allowSymbol = true) (here : c.kind = some .infinity) :
      OperandStep g allowSymbol c .infinity c.next

theorem operand_eq_ok {allowSymbol : Bool} :
    operand g allowSymbol c = .ok (x, c') ↔ OperandStep g allowSymbol c x c' := by
  constructor
  · intro h
    unfold operand at h
    split at h
    · next hk => exact .braced hk h
    · split at h
      · next digit after ht =>
        obtain ⟨rfl, rfl⟩ : .number digit = x ∧ after = c' := by simpa using h
        exact .digit ht
      · simp at h
    · next hk =>
      split at h
      · next ha =>
        obtain ⟨rfl, rfl⟩ : .symbol c.text = x ∧ c.next = c' := by simpa using h
        exact .symbol ha hk
      · simp at h
    · next hk =>
      split at h
      · next ha =>
        obtain ⟨rfl, rfl⟩ : .infinity = x ∧ c.next = c' := by simpa using h
        exact .infinity ha hk
      · simp at h
    · simp at h
  · intro h
    cases h with
    | braced opened inside => simp [operand, opened, inside]
    | digit taken => simp [operand, Cursor.kind_of_takeDigit taken, taken]
    | symbol allowed here => simp [operand, allowed, here]
    | infinity allowed here => simp [operand, allowed, here]

inductive LogBaseStep (g : Rules) (f : Builtin) (c : Cursor) : Option Formula → Cursor → Prop
  | written {base : Formula} {after : Cursor} (log : f = .log)
      (mark : c.kind = some .underscore)
      (below : operand g true c.next = .ok (base, after)) : LogBaseStep g f c (some base) after
  | absent (other : ¬(f = .log ∧ c.kind = some .underscore)) : LogBaseStep g f c none c

theorem logBase_eq_ok {base : Option Formula} :
    logBase g f c = .ok (base, c') ↔ LogBaseStep g f c base c' := by
  constructor
  · intro h
    unfold logBase at h
    split at h
    · next hf =>
      simp only [bind_eq_ok, Prod.exists, pure_eq_ok, Prod.mk.injEq] at h
      obtain ⟨b, after, hb, rfl, rfl⟩ := h
      simp only [Bool.and_eq_true, decide_eq_true_eq] at hf
      exact .written hf.1 hf.2 hb
    · next hf =>
      obtain ⟨rfl, rfl⟩ : none = base ∧ c = c' := by simpa using h
      exact .absent (by simpa using hf)
  · intro h
    cases h with
    | written log mark below => simp [logBase, log, mark, below]
    | absent other => simpa [logBase] using other

def raise (f : Builtin) (x : Formula) : Builtin × Option Formula :=
  match f.inverse? with
  | some inverse => if isMinusOne x then (inverse, none) else (f, some x)
  | none => (f, some x)

inductive FunctionExponentStep (g : Rules) (f : Builtin) (c : Cursor) :
    Builtin × Option Formula → Cursor → Prop
  | written {x : Formula} {after : Cursor} (mark : c.kind = some .caret)
      (above : g.exponent c.next = .ok (.value x, after)) :
      FunctionExponentStep g f c (raise f x) after
  | absent (other : c.kind ≠ some .caret) : FunctionExponentStep g f c (f, none) c

theorem functionExponent_eq_ok {r : Builtin × Option Formula} :
    functionExponent g f c = .ok (r, c') ↔ FunctionExponentStep g f c r c' := by
  constructor
  · intro h
    unfold functionExponent at h
    split at h
    · next hk =>
      simp only [bind_eq_ok, Prod.exists] at h
      obtain ⟨e, after, he, h⟩ := h
      cases e with
      | value x =>
        obtain ⟨rfl, rfl⟩ : raise f x = r ∧ after = c' := by
          unfold raise
          cases hi : f.inverse? with
          | none => simpa [hi] using h
          | some inverse =>
            simp only [hi] at h ⊢
            split at h <;> simp_all
        exact .written hk he
      | dagger | prime => simp at h
    · next hk =>
      obtain ⟨rfl, rfl⟩ : (f, none) = r ∧ c = c' := by simpa using h
      exact .absent hk
  · intro h
    cases h with
    | @written x _ mark above =>
      simp only [functionExponent, mark, if_true, above, bind_eq_ok, Prod.exists, raise]
      refine ⟨_, _, rfl, ?_⟩
      cases f.inverse? with
      | none => rfl
      | some inverse => by_cases hx : isMinusOne x <;> simp [hx]
    | absent other => simp [functionExponent, other]

def aroundArguments : List Delimiter := [.round, .square, .curly]

inductive FunctionArgumentsStep (g : Rules) (f : Builtin) (mode : Mode) (c : Cursor) :
    List Formula × Bool → Cursor → Prop
  | pair {bra ket : Formula} {middle after : Cursor} (inner : f = .innerProduct)
      (left : operand g true c = .ok (bra, middle))
      (right : operand g true middle = .ok (ket, after)) :
      FunctionArgumentsStep g f mode c ([bra, ket], true) after
  | delimited {d : Delimiter} {args : List Formula} {after : Cursor} (other : f ≠ .innerProduct)
      (around : d ∈ aroundArguments) (opened : c.kind = some (.opening d))
      (inside : g.arguments d c.next = .ok (args, after)) :
      FunctionArgumentsStep g f mode c (args, true) after
  | bare {x : Formula} {after : Cursor} (other : f ≠ .innerProduct)
      (unopened : ∀ d ∈ aroundArguments, c.kind ≠ some (.opening d))
      (takes : f.takesBareArgument = true)
      (follows : g.signedTerm { bareArgument := true, insideBars := mode.insideBars } c =
        .ok (x, after)) :
      FunctionArgumentsStep g f mode c ([x], false) after

theorem functionArguments_eq_ok {r : List Formula × Bool} :
    functionArguments g f mode c = .ok (r, c') ↔ FunctionArgumentsStep g f mode c r c' := by
  constructor
  · intro h
    unfold functionArguments at h
    split at h
    · next hf =>
      simp only [bind_eq_ok, Prod.exists, pure_eq_ok, Prod.mk.injEq] at h
      obtain ⟨bra, middle, hb, ket, after, hk, rfl, rfl⟩ := h
      exact .pair hf hb hk
    · next hf =>
      simp only at h
      split at h
      iterate 3
        · next hk =>
          simp only [bind_eq_ok, Prod.exists, pure_eq_ok, Prod.mk.injEq] at h
          obtain ⟨args, after, ha, rfl, rfl⟩ := h
          exact .delimited hf (by decide) hk ha
      · next h1 h2 h3 =>
        split at h
        · next ht =>
          simp only [bind_eq_ok, Prod.exists, pure_eq_ok, Prod.mk.injEq] at h
          obtain ⟨y, after, hy, rfl, rfl⟩ := h
          refine .bare hf (fun d hd => ?_) ht hy
          simp only [aroundArguments, List.mem_cons, List.not_mem_nil, or_false] at hd
          obtain rfl | rfl | rfl := hd
          · exact h1
          · exact h2
          · exact h3
        · simp at h
  · intro h
    cases h with
    | pair inner left right => simp [functionArguments, inner, left, right]
    | delimited other around opened inside =>
      simp only [aroundArguments, List.mem_cons, List.not_mem_nil, or_false] at around
      obtain rfl | rfl | rfl := around <;> simp [functionArguments, other, opened, inside]
    | bare other unopened takes follows =>
      simp only [functionArguments, if_neg other]
      split
      · next hk => exact absurd hk (unopened .round (by decide))
      · next hk => exact absurd hk (unopened .square (by decide))
      · next hk => exact absurd hk (unopened .curly (by decide))
      · simp [takes, follows]

def applied (f : Builtin) (power base : Option Formula) (args : List Formula)
    (delimited : Bool) : Formula :=
  match power with
  | some x => .powered f x (args ++ base.toList)
  | none => .apply f (args ++ base.toList) delimited

theorem application_eq_ok : application g f mode c = .ok (x, c') ↔
    ∃ base c₁ f' power c₂ args delimited, logBase g f c = .ok (base, c₁) ∧
      functionExponent g f c₁ = .ok ((f', power), c₂) ∧
      functionArguments g f' mode c₂ = .ok ((args, delimited), c') ∧
      applied f' power base args delimited = x := by
  simp only [application, bind_eq_ok, Prod.exists]
  constructor
  · rintro ⟨base, c₁, hb, f', power, c₂, hp, args, delimited, after, ha, h⟩
    cases power <;>
      (simp only [pure_eq_ok, Prod.mk.injEq] at h
       obtain ⟨rfl, rfl⟩ := h
       exact ⟨base, c₁, f', _, c₂, args, delimited, hb, hp, ha, rfl⟩)
  · rintro ⟨base, c₁, f', power, c₂, args, delimited, hb, hp, ha, rfl⟩
    refine ⟨base, c₁, hb, f', power, c₂, hp, args, delimited, c', ha, ?_⟩
    cases power <;> rfl

inductive RootStep (g : Rules) (c : Cursor) : Formula → Cursor → Prop
  | indexed {index x : Formula} {middle after : Cursor}
      (opened : c.kind = some (.opening .square))
      (inside : bracketed g .square c.next = .ok (index, middle))
      (under : operand g true middle = .ok (x, after)) : RootStep g c (.root (some index) x) after
  | plain {x : Formula} {after : Cursor} (other : c.kind ≠ some (.opening .square))
      (under : operand g true c = .ok (x, after)) : RootStep g c (.root none x) after

theorem root_eq_ok : root g c = .ok (x, c') ↔ RootStep g c x c' := by
  constructor
  · intro h
    unfold root at h
    split at h
    · next hk =>
      simp only [bind_eq_ok, Prod.exists, pure_eq_ok, Prod.mk.injEq] at h
      obtain ⟨index, middle, hi, y, after, hu, rfl, rfl⟩ := h
      exact .indexed hk hi hu
    · next hk =>
      simp only [bind_eq_ok, Prod.exists, pure_eq_ok, Prod.mk.injEq] at h
      obtain ⟨y, after, hu, rfl, rfl⟩ := h
      exact .plain hk hu
  · intro h
    cases h with
    | indexed opened inside under => simp [root, opened, inside, under]
    | plain other under => simp [root, other, under]

theorem fraction_eq_ok : fraction g c = .ok (x, c') ↔
    ∃ top middle bottom, operand g false c = .ok (top, middle) ∧
      operand g true middle = .ok (bottom, c') ∧ .fraction top bottom = x := by
  simp [fraction]

theorem binomial_eq_ok : binomial g c = .ok (x, c') ↔
    ∃ top middle bottom, operand g false c = .ok (top, middle) ∧
      operand g true middle = .ok (bottom, c') ∧ .binomial top bottom = x := by
  simp [binomial]

inductive BarsStep (g : Rules) (c : Cursor) : Formula → Cursor → Prop
  | absolute {x : Formula} {after : Cursor} (inside : g.sum .bars c = .ok (x, after))
      (closed : after.kind = some .pipe) : BarsStep g c (.apply .abs [x] true) after.next
  | ket {x : Formula} {after : Cursor} (inside : g.sum .bars c = .ok (x, after))
      (closed : after.kind = some (.closing .angle)) :
      BarsStep g c (.apply .ket [x] true) after.next

theorem bars_eq_ok : bars g c = .ok (x, c') ↔ BarsStep g c x c' := by
  constructor
  · intro h
    simp only [bars, bind_eq_ok, Prod.exists] at h
    obtain ⟨y, after, hy, h⟩ := h
    split at h
    · next hk =>
      obtain ⟨rfl, rfl⟩ : .apply .abs [y] true = x ∧ after.next = c' := by simpa using h
      exact .absolute hy hk
    · next hk =>
      obtain ⟨rfl, rfl⟩ : .apply .ket [y] true = x ∧ after.next = c' := by simpa using h
      exact .ket hy hk
    · simp at h
  · intro h
    cases h with
    | absolute inside closed => simp [bars, inside, closed]
    | ket inside closed => simp [bars, inside, closed]

inductive AngleStep (g : Rules) (c : Cursor) : Formula → Cursor → Prop
  | innerProduct {bra ket : Formula} {middle after : Cursor}
      (left : g.sum .bars c = .ok (bra, middle)) (bar : middle.kind = some .pipe)
      (more : startsFactor .bars middle.next = true)
      (right : g.sum .bars middle.next = .ok (ket, after))
      (closed : after.kind = some (.closing .angle)) :
      AngleStep g c (.apply .innerProduct [bra, ket] true) after.next
  | bra {bra : Formula} {middle : Cursor} (left : g.sum .bars c = .ok (bra, middle))
      (bar : middle.kind = some .pipe) (last : startsFactor .bars middle.next = false) :
      AngleStep g c (.apply .bra [bra] true) middle.next

theorem angle_eq_ok : angle g c = .ok (x, c') ↔ AngleStep g c x c' := by
  constructor
  · intro h
    simp only [angle, bind_eq_ok, Prod.exists, lift_eq_ok, Cursor.expect_eq_ok] at h
    obtain ⟨bra, middle, hb, _, ⟨hbar, rfl⟩, h⟩ := h
    split at h
    · next hs =>
      simp only [bind_eq_ok, Prod.exists, lift_eq_ok, Cursor.expect_eq_ok, pure_eq_ok,
        Prod.mk.injEq] at h
      obtain ⟨ket, after, hk, _, ⟨hc, rfl⟩, rfl, rfl⟩ := h
      exact .innerProduct hb hbar hs hk hc
    · next hs =>
      obtain ⟨rfl, rfl⟩ : .apply .bra [bra] true = x ∧ middle.next = c' := by simpa using h
      exact .bra hb hbar (by simpa using hs)
  · intro h
    cases h with
    | innerProduct left bar more right closed =>
      simp [angle, left, Cursor.expect_eq_ok, bar, more, right, closed]
    | bra left bar last => simp [angle, left, Cursor.expect_eq_ok, bar, last]

end AnswerKey.Grammar

import AnswerKey.Proofs.Expr.Core
import AnswerKey.Proofs.Expr.Legible

/-! Reading a canonical text back. It gives the core of the expression, so that
expressions with the same text have the same core. -/
namespace AnswerKey

namespace Piece

def isWord : Piece → Bool
  | char c => isWordChar c
  | bracket _ => false

def spelling (ps : List Piece) : String := String.ofList (textAll ps)

def splitOperand (ps : List Piece) : (String × Option (List Piece)) × List Piece :=
  match ps.dropWhile isWord with
  | bracket inside :: rest => ((spelling (ps.takeWhile isWord), some inside), rest)
  | rest => ((spelling (ps.takeWhile isWord), none), rest)

def items : List Piece → List (List Piece)
  | [] => [[]]
  | char ',' :: char ' ' :: ps => [] :: items ps
  | p :: ps =>
    match items ps with
    | [] => [[p]]
    | item :: rest => (p :: item) :: rest

def itemsInside (ps : List Piece) : List (List Piece) :=
  match ps with
  | [] => []
  | ps => items ps

section

variable (number? : String → Option Double) (sub : List Piece → Expr)

def leaf (w : String) : Expr :=
  match number? w with
  | some a => .number a
  | none => .symbol w

def bound (ps : List Piece) : Option Expr :=
  match sub ps with
  | .symbol "none" => none
  | x => some x

def application (head : String) (items : List (List Piece)) : Expr :=
  match head, items with
  | "binomial", [t, b] => .binomial (sub t) (sub b)
  | "sum", [n, l, u, b] => .aggregate .sum (spelling n) (sub l) (sub u) (sub b)
  | "product", [n, l, u, b] => .aggregate .product (spelling n) (sub l) (sub u) (sub b)
  | "integral", [x, n] => .integral none none (sub x) (spelling n)
  | "integral", [x, n, l, u] => .integral (bound sub l) (bound sub u) (sub x) (spelling n)
  | "limit", [x, n, a] => .limit (spelling n) (sub a) none (sub x)
  | "limit", [x, n, a, s] =>
    .limit (spelling n) (sub a) (if spelling s = "+" then some .above else some .below) (sub x)
  | _, _ =>
    match Builtin.all.find? (·.name = head) with
    | some f => .apply f (items.map sub)
    | none => .call head (items.map sub)

def operand : String × Option (List Piece) → Expr
  | (w, none) => leaf number? w
  | (w, some inside) => if w = "" then sub inside else application sub w (itemsInside inside)

def behind (x : Expr) : List Piece → Expr
  | char '!' :: _ => .factorial x
  | char '^' :: ps => .power x (operand number? sub (splitOperand ps).1)
  | char '*' :: ps => .binary .mul x (operand number? sub (splitOperand ps).1)
  | char '/' :: ps => .binary .div x (operand number? sub (splitOperand ps).1)
  | char ' ' :: char '+' :: char ' ' :: ps =>
    .binary .add x (operand number? sub (splitOperand ps).1)
  | char ' ' :: char '-' :: char ' ' :: ps =>
    .binary .sub x (operand number? sub (splitOperand ps).1)
  | _ => x

def phrase : List Piece → Expr
  | char '-' :: ps => .negated (operand number? sub (splitOperand ps).1)
  | ps => behind number? sub (operand number? sub (splitOperand ps).1) (splitOperand ps).2

end

/-- Reads pieces back. The fuel bounds how deep the expression is, and the
function tells which words are numbers. -/
def decode (number? : String → Option Double) : Nat → List Piece → Expr
  | 0, _ => default
  | fuel + 1, ps => phrase number? (decode number? fuel) ps

inductive OperandPieces : List Piece → String × Option (List Piece) → Prop
  | word {w : String} (nonempty : w ≠ "") (hw : ∀ c ∈ w.toList, isWordChar c = true) :
      OperandPieces (word w) (w, none)
  | bracket {w : String} (hw : ∀ c ∈ w.toList, isWordChar c = true) (inside : List Piece) :
      OperandPieces (word w ++ [bracket inside]) (w, some inside)

def Parted (ps : List Piece) : Prop := ∀ p ∈ ps.head?, ∃ c, p = char c ∧ isWordChar c = false

theorem parted_word {s : String} {c : Char} {cs : List Char} (hs : s.toList = c :: cs)
    (hc : isWordChar c = false) (ps : List Piece) : Parted (word s ++ ps) := by
  intro p hp
  rw [word, hs] at hp
  exact ⟨c, (Option.some.inj hp).symm, hc⟩

theorem span_word {w : String} (hw : ∀ c ∈ w.toList, isWordChar c = true) {rest : List Piece}
    (hr : ∀ p ∈ rest.head?, p.isWord = false) :
    (word w ++ rest).takeWhile isWord = word w ∧ (word w ++ rest).dropWhile isWord = rest :=
  takeWhile_of_all (List.forall_mem_map.2 hw) hr

theorem spelling_word (w : String) : spelling (word w) = w := by
  rw [spelling, textAll_word, String.ofList_toList]

variable {ps rest : List Piece} {o : String × Option (List Piece)}
  {number? : String → Option Double} {sub : List Piece → Expr}

theorem splitOperand_append (h : OperandPieces ps o) (hr : Parted rest) :
    splitOperand (ps ++ rest) = (o, rest) := by
  unfold splitOperand
  cases h with
  | @word w _ hw =>
    have hstop : ∀ p ∈ rest.head?, p.isWord = false := fun p hp => by
      obtain ⟨c, rfl, hc⟩ := hr p hp
      exact hc
    obtain ⟨htake, hdrop⟩ := span_word hw hstop
    rw [htake, hdrop, spelling_word]
    cases rest with
    | nil => rfl
    | cons p rest =>
      obtain ⟨c, rfl, -⟩ := hr p rfl
      rfl
  | @bracket w hw inside =>
    have hstop : ∀ p ∈ (bracket inside :: rest).head?, p.isWord = false := fun p hp => by
      rw [← Option.some.inj hp]
      rfl
    obtain ⟨htake, hdrop⟩ := span_word hw hstop
    rw [List.append_assoc, List.singleton_append, htake, hdrop, spelling_word]

theorem OperandPieces.exists_cons (h : OperandPieces ps o) :
    ∃ p rest, ps = p :: rest ∧ p ≠ char '-' := by
  have first {w : String} {c : Char} {cs : List Char} (hw : ∀ c ∈ w.toList, isWordChar c = true)
      (hc : w.toList = c :: cs) : char c ≠ char '-' := by
    intro heq
    have hword := hw c (hc ▸ List.mem_cons_self)
    rw [char.inj heq] at hword
    cases hword
  cases h with
  | @word w nonempty hw =>
    cases hc : w.toList with
    | nil => exact absurd (String.toList_eq_nil_iff.1 hc) nonempty
    | cons c cs => exact ⟨char c, cs.map char, by rw [Piece.word, hc, List.map_cons], first hw hc⟩
  | @bracket w hw inside =>
    cases hc : w.toList with
    | nil => exact ⟨.bracket inside, [], by rw [Piece.word, hc]; rfl, by simp⟩
    | cons c cs =>
      refine ⟨char c, cs.map char ++ [.bracket inside], ?_, first hw hc⟩
      rw [Piece.word, hc, List.map_cons, List.cons_append]

theorem phrase_append (h : OperandPieces ps o) (hr : Parted rest) :
    phrase number? sub (ps ++ rest) = behind number? sub (operand number? sub o) rest := by
  obtain ⟨p, ps', hps, hp⟩ := h.exists_cons
  have hsplit := splitOperand_append h hr
  rw [hps, List.cons_append] at hsplit ⊢
  rw [phrase, hsplit]
  rintro ps'' hminus
  exact hp (List.cons.inj hminus).1

theorem phrase_operand (h : OperandPieces ps o) :
    phrase number? sub ps = operand number? sub o := by
  have hnil : phrase number? sub (ps ++ []) = behind number? sub (operand number? sub o) [] :=
    phrase_append h (by simp [Parted])
  rwa [List.append_nil] at hnil

structure IsItem (ps : List Piece) : Prop where
  nonempty : ps ≠ []
  tidy : ∀ p ∈ ps, p.Tidy

theorem isItem_word {w : String} (nonempty : w ≠ "") (hw : ∀ c ∈ w.toList, c ∉ separators) :
    IsItem (word w) :=
  ⟨fun h => nonempty (String.toList_eq_nil_iff.1 (List.map_eq_nil_iff.1 h)), tidy_word hw⟩

theorem IsItem.ne_comma (h : IsItem ps) : ∀ p ∈ ps, p ≠ char ',' := by
  rintro p hp rfl
  cases h.tidy _ hp with
  | char hc => exact hc (by decide)

theorem items_cons {p : Piece} (hp : p ≠ char ',') {item : List Piece} {its : List (List Piece)}
    (h : items ps = item :: its) : items (p :: ps) = (p :: item) :: its := by
  rw [items, h]
  rintro ps' heq -
  exact hp heq

theorem items_of_ne_comma (h : ∀ p ∈ ps, p ≠ char ',') : items ps = [ps] := by
  induction ps with
  | nil => rfl
  | cons p ps ih =>
    obtain ⟨hp, hps⟩ := List.forall_mem_cons.1 h
    exact items_cons hp (ih hps)

theorem items_append (h : ∀ p ∈ ps, p ≠ char ',') (rest : List Piece) :
    items (ps ++ (word ", " ++ rest)) = ps :: items rest := by
  induction ps with
  | nil => rfl
  | cons p ps ih =>
    obtain ⟨hp, hps⟩ := List.forall_mem_cons.1 h
    exact items_cons hp (ih hps)

theorem items_joined {item : List Piece} {its : List (List Piece)}
    (h : ∀ i ∈ item :: its, IsItem i) : items (joined (item :: its)) = item :: its := by
  induction its generalizing item with
  | nil => exact items_of_ne_comma (h item List.mem_cons_self).ne_comma
  | cons next rest ih =>
    obtain ⟨hitem, hrest⟩ := List.forall_mem_cons.1 h
    rw [joined, items_append hitem.ne_comma, ih hrest]

theorem itemsInside_joined {its : List (List Piece)} (h : ∀ i ∈ its, IsItem i) :
    itemsInside (joined its) = its := by
  cases its with
  | nil => rfl
  | cons item its =>
    have hne : joined (item :: its) ≠ [] := by
      have hitem := (h item List.mem_cons_self).nonempty
      cases its with
      | nil => exact hitem
      | cons next rest => exact List.append_ne_nil_of_left_ne_nil hitem _
    rw [itemsInside, items_joined h]
    exact hne

variable {its : List (List Piece)}

theorem application_of_not_reserved {head : String} (h : head ∉ Expr.reserved) :
    application sub head its =
      match Builtin.all.find? (·.name = head) with
      | some f => .apply f (its.map sub)
      | none => .call head (its.map sub) := by
  unfold application
  split <;> first | rfl | exact absurd (by decide) h

theorem application_name (f : Builtin) : application sub f.name its = .apply f (its.map sub) := by
  have hname : f.name ∉ Expr.reserved := by cases f <;> decide
  have hfind : Builtin.all.find? (·.name = f.name) = some f := by cases f <;> decide
  rw [application_of_not_reserved hname, hfind]

theorem application_call {name : String} (hreserved : name ∉ Expr.reserved)
    (hname : Builtin.ofName? name = none) :
    application sub name its = .call name (its.map sub) := by
  have hfind : Builtin.all.find? (·.name = name) = none := by
    refine List.find?_eq_none.2 fun f hf heq => List.find?_eq_none.1 hname f hf ?_
    simp [of_decide_eq_true heq]
  rw [application_of_not_reserved hreserved, hfind]

theorem operand_application {w : String} (hw : w ≠ "") (h : ∀ i ∈ its, IsItem i) :
    operand number? sub (w, some (joined its)) = application sub w its := by
  rw [operand, if_neg hw, itemsInside_joined h]

end Piece

namespace Expr

open Piece

variable {x y : Expr} {number? : String → Option Double} {n : Nat}

theorem Legible.isItem_pieces (h : x.Legible) : IsItem x.pieces := by
  refine ⟨?_, h.tidy_pieces⟩
  have hword {w : String} (hw : w ≠ "") : word w ≠ [] := fun h =>
    hw (String.toList_eq_nil_iff.1 (List.map_eq_nil_iff.1 h))
  have head := h.head
  cases x with
  | number a => exact hword (isNumberText_plain head).ne_empty
  | symbol name => exact hword head.1.ne_empty
  | binary op l r =>
    exact List.append_ne_nil_of_right_ne_nil _ (List.append_ne_nil_of_left_ne_nil
      (hword (by cases op <;> decide)) _)
  | relation => exact head.elim
  | _ => simp [pieces, word]

theorem isItem_boundPieces {x? : Option Expr} (h : ∀ x ∈ x?, x.Legible) :
    IsItem (boundPieces x?) := by
  cases x? with
  | none => exact isItem_word (by decide) (Text.forall_of_all (by decide))
  | some x => exact (h x rfl).isItem_pieces

theorem isItem_sideItems (side : Option Side) : ∀ item ∈ sideItems side, IsItem item := by
  rcases side with _ | _ | _
  · exact List.forall_mem_nil _
  · simpa [sideItems] using isItem_word (w := "+") (by decide) (Text.forall_of_all (by decide))
  · simpa [sideItems] using isItem_word (w := "-") (by decide) (Text.forall_of_all (by decide))

theorem isItem_name {name : String} (h : IsName name) : IsItem (word name) :=
  isItem_word h.ne_empty fun c hc => not_mem_separators (h.isWordChar c hc)

theorem isItem_piecesAll {xs : List Expr} (h : ∀ x ∈ xs, x.Legible) :
    ∀ item ∈ piecesAll xs, IsItem item := by
  rw [piecesAll_eq_map]
  exact List.forall_mem_map.2 fun x hx => (h x hx).isItem_pieces

theorem Legible.exists_operandPieces (h : x.Legible) (hx : x.isAtomic = true) :
    ∃ o, OperandPieces x.pieces o := by
  have applied {w : String} (hw : IsName w) (inside : List Piece) :
      ∃ o, OperandPieces (word w ++ [.bracket inside]) o := ⟨_, .bracket hw.isWordChar inside⟩
  have head := h.head
  cases x with
  | number a =>
    have htext := isNumberText_plain head
    exact ⟨_, .word htext.ne_empty htext.isWordChar⟩
  | symbol name => exact ⟨_, .word head.1.ne_empty head.1.isWordChar⟩
  | group x => exact ⟨_, .bracket (w := "") (by simp) x.pieces⟩
  | apply f args => exact applied f.isName_name _
  | call name args => exact applied head.1 _
  | aggregate kind => exact applied kind.isName_name _
  | binomial | integral | limit => exact applied (isName_of_all (by decide)) _
  | _ => cases hx

end Expr

namespace Piece

def IsOperand (number? : String → Option Double) (sub : List Piece → Expr) (ps : List Piece)
    (x : Expr) : Prop :=
  ∃ o, OperandPieces ps o ∧ operand number? sub o = x

variable {number? : String → Option Double} {sub : List Piece → Expr} {ps qs : List Piece}
  {its : List (List Piece)} {x y : Expr}

theorem IsOperand.phrase_eq (h : IsOperand number? sub ps x) : phrase number? sub ps = x := by
  obtain ⟨o, ho, hx⟩ := h
  exact (phrase_operand ho).trans hx

theorem IsOperand.operand_eq (h : IsOperand number? sub ps x) :
    operand number? sub (splitOperand ps).1 = x := by
  obtain ⟨o, ho, hx⟩ := h
  have hsplit : splitOperand (ps ++ []) = (o, []) := splitOperand_append ho (by simp [Parted])
  rw [List.append_nil] at hsplit
  rw [hsplit, hx]

theorem IsOperand.phrase_append (h : IsOperand number? sub ps x) {sign : String}
    (hsign : ∃ c cs, sign.toList = c :: cs ∧ isWordChar c = false) :
    phrase number? sub (ps ++ (word sign ++ qs)) = behind number? sub x (word sign ++ qs) := by
  obtain ⟨o, ho, hx⟩ := h
  obtain ⟨c, cs, hcs, hc⟩ := hsign
  rw [Piece.phrase_append ho (parted_word hcs hc qs), hx]

theorem isOperand_bracket (inside : List Piece) :
    IsOperand number? sub [.bracket inside] (sub inside) :=
  ⟨_, .bracket (w := "") (by simp) inside, rfl⟩

theorem isOperand_application {w : String} (hw : IsName w) (h : ∀ i ∈ its, IsItem i) :
    IsOperand number? sub (word w ++ [.bracket (joined its)]) (application sub w its) :=
  ⟨_, .bracket hw.isWordChar _, operand_application hw.ne_empty h⟩

theorem phrase_application {w : String} (hw : IsName w) (h : ∀ i ∈ its, IsItem i) :
    phrase number? sub (word w ++ [.bracket (joined its)]) = application sub w its :=
  (isOperand_application hw h).phrase_eq

end Piece

namespace Expr

open Piece

variable {x y : Expr} {number? : String → Option Double} {n : Nat}

/-- The fuel is enough to read the core of the expression from its pieces. -/
def Decodes (number? : String → Option Double) (n : Nat) (x : Expr) : Prop :=
  decode number? n x.pieces = x.core

/-- What is known of a part while the whole is read. A part without parentheses
is met with the fuel of the whole, so that more fuel has to do as well. -/
structure DecodesFrom (number? : String → Option Double) (n : Nat) (x : Expr) : Prop where
  legible : x.Legible
  decodes (k : Nat) (h : n ≤ k) : x.Decodes number? k

namespace DecodesFrom

theorem decode_eq (h : x.DecodesFrom number? n) : decode number? n x.pieces = x.core :=
  h.decodes n (Nat.le_refl n)

theorem isItem (h : x.DecodesFrom number? n) : IsItem x.pieces := h.legible.isItem_pieces

theorem isOperand (h : x.DecodesFrom number? n) :
    IsOperand number? (decode number? n) (enclosed x x.pieces) x.core := by
  unfold enclosed
  split
  next hx =>
    obtain ⟨o, ho⟩ := h.legible.exists_operandPieces hx
    exact ⟨o, ho, (phrase_operand ho).symm.trans (h.decodes (n + 1) n.le_succ)⟩
  next =>
    have hsub : IsOperand number? (decode number? n) [.bracket x.pieces]
        (decode number? n x.pieces) := isOperand_bracket x.pieces
    rwa [h.decode_eq] at hsub

end DecodesFrom

theorem map_decode_piecesAll {xs : List Expr} (h : ∀ x ∈ xs, x.DecodesFrom number? n) :
    (piecesAll xs).map (decode number? n) = coreAll xs := by
  rw [piecesAll_eq_map, coreAll_eq_map, List.map_map]
  exact List.map_congr_left fun x hx => (h x hx).decode_eq

theorem Legible.core_ne_none (h : x.Legible) : x.core ≠ symbol "none" := by
  induction x using induct_children with
  | h x ih =>
    cases x with
    | symbol name =>
      intro hname
      rw [core, symbol.injEq] at hname
      exact h.head.2 (by simp [hname, reserved])
    | group y => exact ih y (by simp [children]) (h.of_child (by simp [children]))
    | _ => simp [core]

theorem bound_boundPieces {x? : Option Expr} (hn : 0 < n) (hnone : number? "none" = none)
    (h : ∀ x ∈ x?, x.DecodesFrom number? n) :
    bound (decode number? n) (boundPieces x?) = coreOption x? := by
  cases x? with
  | none =>
    obtain ⟨n, rfl⟩ := Nat.exists_eq_succ_of_ne_zero (Nat.ne_of_gt hn)
    have hword : OperandPieces (word "none") ("none", none) :=
      .word (by decide) (Text.forall_of_all (by decide))
    have hdecode : decode number? (n + 1) (word "none") = .symbol "none" := by
      rw [decode, phrase_operand hword, operand, leaf, hnone]
    rw [boundPieces, bound, hdecode]
    rfl
  | some x =>
    rw [boundPieces, bound, (h x rfl).decode_eq, coreOption]
    split
    next hx => exact absurd hx (h x rfl).legible.core_ne_none
    next => rfl

/-! Each shape of an expression is read back once its parts are. -/

theorem decodes_number {a : Double} (ha : a.HasPlusSign)
    (hnumber : number? (Decimal.plain a) = some a) : (number a).Decodes number? (n + 1) := by
  have htext := isNumberText_plain ha
  have hword : OperandPieces (word (Decimal.plain a)) (Decimal.plain a, none) :=
    .word htext.ne_empty htext.isWordChar
  rw [Decodes, decode, pieces, phrase_operand hword, operand, leaf, hnumber, core]

theorem decodes_symbol {name : String} (hname : IsName name) (hnumber : number? name = none) :
    (symbol name).Decodes number? (n + 1) := by
  have hword : OperandPieces (word name) (name, none) := .word hname.ne_empty hname.isWordChar
  rw [Decodes, decode, pieces, phrase_operand hword, operand, leaf, hnumber, core]

theorem behind_binary (op : Operation) (sub : List Piece → Expr) (ps : List Piece) :
    behind number? sub x (word op.sign ++ ps) =
      binary op x (operand number? sub (splitOperand ps).1) := by
  cases op <;> rfl

theorem exists_cons_sign (op : Operation) :
    ∃ c cs, op.sign.toList = c :: cs ∧ isWordChar c = false := by
  cases op <;> exact ⟨_, _, rfl, by decide⟩

theorem decodes_binary (op : Operation) (hx : x.DecodesFrom number? n)
    (hy : y.DecodesFrom number? n) : (binary op x y).Decodes number? (n + 1) := by
  rw [Decodes, decode, pieces, hx.isOperand.phrase_append (exists_cons_sign op), behind_binary,
    hy.isOperand.operand_eq, core]

theorem decodes_power (hx : x.DecodesFrom number? n) (hy : y.DecodesFrom number? n) :
    (power x y).Decodes number? (n + 1) := by
  rw [Decodes, decode, pieces, hx.isOperand.phrase_append ⟨_, _, rfl, by decide⟩]
  exact congrArg _ hy.isOperand.operand_eq

theorem decodes_fraction (hx : x.DecodesFrom number? n) (hy : y.DecodesFrom number? n) :
    (fraction x y).Decodes number? (n + 1) := by
  rw [Decodes, decode, pieces, hx.isOperand.phrase_append ⟨_, _, rfl, by decide⟩]
  exact congrArg _ hy.isOperand.operand_eq

theorem decodes_factorial (hx : x.DecodesFrom number? n) :
    (factorial x).Decodes number? (n + 1) := by
  have hsign : phrase number? (decode number? n) (enclosed x x.pieces ++ (word "!" ++ [])) =
      behind number? (decode number? n) x.core (word "!" ++ []) :=
    hx.isOperand.phrase_append ⟨_, _, rfl, by decide⟩
  rw [List.append_nil] at hsign
  rw [Decodes, decode, pieces, hsign]
  rfl

section Brackets

variable {args : List Expr} {name : String}

theorem isItem_of_decodesFrom (h : ∀ x ∈ args, x.DecodesFrom number? n) :
    ∀ i ∈ piecesAll args, IsItem i :=
  isItem_piecesAll fun x hx => (h x hx).legible

theorem decodes_apply (f : Builtin) (h : ∀ x ∈ args, x.DecodesFrom number? n) :
    (apply f args).Decodes number? (n + 1) := by
  rw [Decodes, decode, pieces, phrase_application f.isName_name (isItem_of_decodesFrom h),
    application_name, map_decode_piecesAll h, core]

theorem decodes_call (hname : IsName name) (hreserved : name ∉ reserved)
    (hbuiltin : Builtin.ofName? name = none) (h : ∀ x ∈ args, x.DecodesFrom number? n) :
    (call name args).Decodes number? (n + 1) := by
  rw [Decodes, decode, pieces, phrase_application hname (isItem_of_decodesFrom h),
    application_call hreserved hbuiltin, map_decode_piecesAll h, core]

theorem decodes_powered (f : Builtin) (hx : x.DecodesFrom number? n)
    (h : ∀ x ∈ args, x.DecodesFrom number? n) : (powered f x args).Decodes number? (n + 1) := by
  have happ : IsOperand number? (decode number? n)
      (word f.name ++ [.bracket (joined (piecesAll args))]) (apply f (coreAll args)) := by
    have := @isOperand_application number? (decode number? n) _ _ f.isName_name
      (isItem_of_decodesFrom h)
    rwa [application_name, map_decode_piecesAll h] at this
  have hpieces : (powered f x args).pieces =
      (word f.name ++ [.bracket (joined (piecesAll args))]) ++
        (word "^" ++ enclosed x x.pieces) := by simp [pieces]
  rw [Decodes, decode, hpieces, happ.phrase_append ⟨_, _, rfl, by decide⟩]
  exact congrArg _ hx.isOperand.operand_eq

theorem decodes_binomial (hx : x.DecodesFrom number? n) (hy : y.DecodesFrom number? n) :
    (binomial x y).Decodes number? (n + 1) := by
  have hitems : ∀ i ∈ [x.pieces, y.pieces], IsItem i := by simpa using ⟨hx.isItem, hy.isItem⟩
  rw [Decodes, decode, pieces, phrase_application (isName_of_all (by decide)) hitems, application,
    hx.decode_eq, hy.decode_eq, core]

theorem decodes_aggregate (kind : Aggregate) {lower upper : Expr} (hname : IsName name)
    (hlower : lower.DecodesFrom number? n) (hupper : upper.DecodesFrom number? n)
    (hx : x.DecodesFrom number? n) :
    (aggregate kind name lower upper x).Decodes number? (n + 1) := by
  have hitems : ∀ i ∈ [word name, lower.pieces, upper.pieces, x.pieces], IsItem i := by
    simpa using ⟨isItem_name hname, hlower.isItem, hupper.isItem, hx.isItem⟩
  rw [Decodes, decode, pieces, phrase_application kind.isName_name hitems]
  cases kind <;>
    rw [Aggregate.name, application, hlower.decode_eq, hupper.decode_eq, hx.decode_eq,
      spelling_word, core]

theorem decodes_integral {lower upper : Option Expr} (hname : IsName name) (hn : 0 < n)
    (hnone : number? "none" = none) (hx : x.DecodesFrom number? n)
    (hlower : ∀ y ∈ lower, y.DecodesFrom number? n)
    (hupper : ∀ y ∈ upper, y.DecodesFrom number? n) :
    (integral lower upper x name).Decodes number? (n + 1) := by
  have htwo : ∀ i ∈ [x.pieces, word name], IsItem i := by
    simpa using ⟨hx.isItem, isItem_name hname⟩
  have hfour : ∀ i ∈ [x.pieces, word name, boundPieces lower, boundPieces upper], IsItem i := by
    simpa using ⟨hx.isItem, isItem_name hname, isItem_boundPieces fun y hy => (hlower y hy).legible,
      isItem_boundPieces fun y hy => (hupper y hy).legible⟩
  rw [Decodes, decode, pieces]
  split
  next =>
    rw [phrase_application (isName_of_all (by decide)) hfour, application,
      bound_boundPieces hn hnone hlower, bound_boundPieces hn hnone hupper, hx.decode_eq,
      spelling_word, core]
  next hbounds =>
    obtain ⟨rfl, rfl⟩ : lower = none ∧ upper = none := by simpa using hbounds
    rw [phrase_application (isName_of_all (by decide)) htwo, application, hx.decode_eq,
      spelling_word]
    rfl

theorem decodes_limit {side : Option Side} (hname : IsName name) (hx : x.DecodesFrom number? n)
    (hy : y.DecodesFrom number? n) : (limit name y side x).Decodes number? (n + 1) := by
  have hitems : ∀ i ∈ x.pieces :: word name :: y.pieces :: sideItems side, IsItem i := by
    simpa using ⟨hx.isItem, isItem_name hname, hy.isItem, isItem_sideItems side⟩
  rw [Decodes, decode, pieces, phrase_application (isName_of_all (by decide)) hitems]
  rcases side with _ | _ | _
  · rw [sideItems, application, hx.decode_eq, hy.decode_eq, spelling_word, core]
  · rw [sideItems, application, hx.decode_eq, hy.decode_eq, spelling_word, spelling_word, core]
    rfl
  · rw [sideItems, application, hx.decode_eq, hy.decode_eq, spelling_word, spelling_word, core]
    rfl

end Brackets

/-- With enough fuel an expression is read back from its pieces, up to what its
text does not show. -/
theorem Legible.decodes (h : x.Legible)
    (hnumber : ∀ a, (number a).Occurs x → number? (Decimal.plain a) = some a)
    (hname : ∀ w, ¬IsNumberText w → number? w = none) (hn : sizeOf x ≤ n) :
    x.Decodes number? n := by
  induction x using induct_children generalizing n with
  | h x ih =>
    obtain ⟨n, rfl⟩ : ∃ k, n = k + 1 :=
      Nat.exists_eq_succ_of_ne_zero (by have := sizeOf_pos x; omega)
    have part (y : Expr) (hy : y ∈ x.children) : y.DecodesFrom number? n :=
      ⟨h.of_child hy, fun k hk =>
        ih y hy (h.of_child hy) (fun a ha => hnumber a (.inside hy ha))
          (by have := sizeOf_lt_of_mem_children hy; omega)⟩
    have head := h.head
    cases x with
    | number a => exact decodes_number head (hnumber a (.self _))
    | symbol name =>
      have hinf : name ≠ "inf" := by
        rintro rfl
        exact head.2 (by simp [reserved])
      exact decodes_symbol head.1 (hname name (head.1.not_isNumberText hinf))
    | binary op l r =>
      exact decodes_binary op (part l (by simp [children])) (part r (by simp [children]))
    | power b e => exact decodes_power (part b (by simp [children])) (part e (by simp [children]))
    | fraction d e =>
      exact decodes_fraction (part d (by simp [children])) (part e (by simp [children]))
    | negated y => exact congrArg _ (part y (by simp [children])).isOperand.operand_eq
    | factorial y => exact decodes_factorial (part y (by simp [children]))
    | group y =>
      rw [Decodes, decode, pieces, (isOperand_bracket y.pieces).phrase_eq,
        (part y (by simp [children])).decode_eq, core]
    | apply f args => exact decodes_apply f part
    | call name args => exact decodes_call head.1 head.2.1 head.2.2 part
    | powered f e args =>
      exact decodes_powered f (part e (by simp [children])) fun y hy =>
        part y (by simp [children, hy])
    | binomial t b =>
      exact decodes_binomial (part t (by simp [children])) (part b (by simp [children]))
    | aggregate kind name lower upper body =>
      exact decodes_aggregate kind head (part lower (by simp [children]))
        (part upper (by simp [children])) (part body (by simp [children]))
    | integral lower upper integrand name =>
      have inner : integrand ∈ (integral lower upper integrand name).children := by simp [children]
      have hpos : 0 < n := by
        have := sizeOf_pos integrand
        have := sizeOf_lt_of_mem_children inner
        omega
      have hnone : number? "none" = none :=
        hname _ (IsName.not_isNumberText (isName_of_all (by decide)) (by decide))
      exact decodes_integral head hpos hnone (part integrand inner)
        (fun y hy => part y (by simp [children, Option.mem_def.1 hy]))
        (fun y hy => part y (by simp [children, Option.mem_def.1 hy]))
    | limit name approach side body =>
      exact decodes_limit head (part body (by simp [children])) (part approach (by simp [children]))
    | relation => exact head.elim

theorem exists_numberReader {N : Double → Prop}
    (h : ∀ a b, N a → N b → Decimal.plain a = Decimal.plain b → a = b) :
    ∃ number? : String → Option Double, (∀ a, N a → number? (Decimal.plain a) = some a) ∧
      ∀ w, (∀ a, N a → Decimal.plain a ≠ w) → number? w = none := by
  classical
  refine ⟨fun w => if hw : ∃ a, N a ∧ Decimal.plain a = w then some hw.choose else none,
    fun a ha => ?_, fun w hw => dif_neg ?_⟩
  · have hex : ∃ b, N b ∧ Decimal.plain b = Decimal.plain a := ⟨a, ha, rfl⟩
    refine (dif_pos hex).trans (congrArg some ?_)
    exact h _ a hex.choose_spec.1 ha hex.choose_spec.2
  · rintro ⟨a, ha, htext⟩
    exact hw a ha htext

/-- Expressions with the same pieces have the same core, where the text of a number
tells it from the others in them. -/
theorem Legible.core_eq (hx : x.Legible) (hy : y.Legible)
    (hnumbers : ∀ a b, (number a).Occurs x ∨ (number a).Occurs y →
      (number b).Occurs x ∨ (number b).Occurs y → Decimal.plain a = Decimal.plain b → a = b)
    (h : x.pieces = y.pieces) : x.core = y.core := by
  obtain ⟨number?, hnumber, hnone⟩ := exists_numberReader hnumbers
  have hname (w : String) (hw : ¬IsNumberText w) : number? w = none := by
    refine hnone w ?_
    rintro a ha rfl
    rcases ha with ha | ha
    · exact hw (isNumberText_plain (hx.of_occurs ha).head)
    · exact hw (isNumberText_plain (hy.of_occurs ha).head)
  have hxs : x.Decodes number? (sizeOf x + sizeOf y) :=
    hx.decodes (fun a ha => hnumber a (.inl ha)) hname (Nat.le_add_right _ _)
  have hys : y.Decodes number? (sizeOf x + sizeOf y) :=
    hy.decodes (fun a ha => hnumber a (.inr ha)) hname (Nat.le_add_left _ _)
  exact hxs.symm.trans ((congrArg _ h).trans hys)

end Expr

end AnswerKey

import Mathlib.Data.List.Perm.Basic
import Mathlib.Data.List.Sort
import AnswerKey.Answer.Scan
import AnswerKey.Proofs.Answer.Balance

/-! The search for a box over bytes never comes to a fault, and finds what the
search over characters finds. -/
namespace AnswerKey.Answer

open Lexeme (isBrace)
open Text (size)

namespace Scan

variable {a b cs : List Char} {c : Char} {depth offset : Nat}

/-! Offsets between characters. -/

theorem textFrom_append (a b : List Char) : textFrom (size a) (a ++ b) = .ok b := by
  induction a with
  | nil => cases b <;> rfl
  | cons c a ih =>
    obtain ⟨n, hsize, hle, hrest⟩ := Text.exists_size_cons c a
    rw [hsize, List.cons_append, textFrom, if_pos hle, hrest, ih]

theorem textUpTo_append (a b : List Char) : textUpTo (size a) (a ++ b) = .ok a := by
  induction a with
  | nil => cases b <;> rfl
  | cons c a ih =>
    obtain ⟨n, hsize, hle, hrest⟩ := Text.exists_size_cons c a
    rw [hsize, List.cons_append, textUpTo, if_pos hle, hrest, ih]
    rfl

theorem cut_append (a b rest : List Char) :
    cut (size a) (size a + size b) (a ++ (b ++ rest)) = .ok b := by
  rw [cut, if_neg (by omega), textFrom_append, Nat.add_sub_cancel_left]
  exact textUpTo_append b rest

theorem bytes_append (a b : List Char) : bytes (a ++ b) = bytes a ++ bytes b :=
  List.flatMap_append

theorem length_bytes (cs : List Char) : (bytes cs).length = size cs := by
  induction cs with
  | nil => rfl
  | cons c cs ih =>
    have : bytes (c :: cs) = String.utf8EncodeChar c ++ bytes cs := rfl
    rw [this, List.length_append, String.length_utf8EncodeChar, ih, size]

theorem drop_bytes (a b : List Char) : (bytes (a ++ b)).drop (size a) = bytes b := by
  rw [bytes_append, ← length_bytes, List.drop_left]

/-! Bytes that the search passes over. -/

def IsPlainByte (b : UInt8) : Prop := b ≠ 0x5c ∧ b ≠ 0x7b ∧ b ≠ 0x7d

theorem isPlainByte_of_le {n : Nat} (low : 128 ≤ n) (high : n < 256) :
    IsPlainByte (UInt8.ofNat n) := by
  have value : (UInt8.ofNat n).toNat = n := by simp [Nat.mod_eq_of_lt high]
  refine ⟨?_, ?_, ?_⟩ <;>
  · intro h
    rw [h] at value
    simp at value
    omega

theorem bytes_cases (c : Char) :
    String.utf8EncodeChar c = [UInt8.ofNat c.val.toNat] ∧ c.val.toNat ≤ 127 ∨
      ∀ b ∈ String.utf8EncodeChar c, IsPlainByte b := by
  have far {n m k : Nat} (h : 128 ≤ k ∧ m + k ≤ 256 ∧ 0 < m) :
      IsPlainByte (UInt8.ofNat (n % m + k)) := by
    have := Nat.mod_lt n h.2.2
    exact isPlainByte_of_le (by omega) (by omega)
  unfold String.utf8EncodeChar
  dsimp only
  split
  · next h => exact .inl ⟨rfl, h⟩
  · right
    split
    · simp only [List.forall_mem_cons]
      exact ⟨far (by decide), far (by decide), nofun⟩
    · split
      · simp only [List.forall_mem_cons]
        exact ⟨far (by decide), far (by decide), far (by decide), nofun⟩
      · simp only [List.forall_mem_cons]
        exact ⟨far (by decide), far (by decide), far (by decide), far (by decide), nofun⟩

theorem eq_of_single {c d : Char} (hc : c.val.toNat ≤ 127) (hd : d.val.toNat ≤ 127)
    (h : UInt8.ofNat c.val.toNat = UInt8.ofNat d.val.toNat) : c = d := by
  have values := congrArg UInt8.toNat h
  rw [UInt8.toNat_ofNat', UInt8.toNat_ofNat'] at values
  exact Char.ext (UInt32.toNat_inj.1 (by omega))

theorem isPlainByte_of_plain {c : Char} (slash : c ≠ '\\') (brace : isBrace c = false) :
    ∀ b ∈ String.utf8EncodeChar c, IsPlainByte b := by
  obtain ⟨single, low⟩ | plain := bytes_cases c
  · have differs {d : Char} (hd : d.val.toNat ≤ 127) (h : c ≠ d) :
        UInt8.ofNat c.val.toNat ≠ UInt8.ofNat d.val.toNat :=
      fun heq => h (eq_of_single low hd heq)
    simp only [isBrace, Bool.or_eq_false_iff, decide_eq_false_iff_not] at brace
    rw [single]
    exact List.forall_mem_singleton.2
      ⟨differs (by decide) slash, differs (by decide) brace.1, differs (by decide) brace.2⟩
  · exact plain

/-- Of the bytes behind the first one of a character none is passed for another character. -/
theorem utf8EncodeChar_cons (c : Char) : ∃ b bs, String.utf8EncodeChar c = b :: bs ∧
    ∀ x ∈ bs, IsPlainByte x := by
  obtain ⟨single, -⟩ | plain := bytes_cases c
  · exact ⟨_, [], single, nofun⟩
  · have length := String.length_utf8EncodeChar c
    cases h : String.utf8EncodeChar c with
    | nil =>
      rw [h, List.length_nil] at length
      exact absurd length.symm (Text.utf8Size_ne_zero c)
    | cons b bs => exact ⟨b, bs, rfl, fun x hx => plain x (h ▸ List.mem_cons_of_mem b hx)⟩

theorem head?_bytes {cs : List Char} (h : (bytes cs).head? = some 0x7b) :
    ∃ rest, cs = '{' :: rest := by
  cases cs with
  | nil => cases h
  | cons c rest =>
    change (String.utf8EncodeChar c ++ bytes rest).head? = _ at h
    obtain ⟨single, low⟩ | plain := bytes_cases c
    · rw [single] at h
      exact ⟨rest, congrArg (· :: rest) (eq_of_single low (by decide) (Option.some.inj h))⟩
    · obtain ⟨b, bs, hc, -⟩ := utf8EncodeChar_cons c
      rw [hc] at h plain
      exact absurd (Option.some.inj h) (plain b List.mem_cons_self).2.1

theorem closeOffset_plain {bs : List UInt8} (h : ∀ b ∈ bs, IsPlainByte b) (depth offset : Nat)
    (rest : List UInt8) :
    closeOffset depth offset (bs ++ rest) = closeOffset depth (offset + bs.length) rest := by
  induction bs generalizing offset with
  | nil => rfl
  | cons b bs ih =>
    obtain ⟨slash, opening, closing⟩ := h b List.mem_cons_self
    rw [List.cons_append, closeOffset.eq_def]
    simp only [slash, opening, closing, if_false]
    rw [ih fun x hx => h x (List.mem_cons_of_mem b hx), List.length_cons, Nat.add_right_comm,
      Nat.add_assoc]

theorem closeOffset_backslash (depth offset : Nat) (b : UInt8) (rest : List UInt8) :
    closeOffset depth offset (0x5c :: b :: rest) = closeOffset depth (offset + 2) rest := rfl

theorem closeOffset_opening (depth offset : Nat) (rest : List UInt8) :
    closeOffset depth offset (0x7b :: rest) = closeOffset (depth + 1) (offset + 1) rest := by
  rw [closeOffset.eq_def]
  rfl

theorem closeOffset_closing (depth offset : Nat) (rest : List UInt8) :
    closeOffset (depth + 2) offset (0x7d :: rest) = closeOffset (depth + 1) (offset + 1) rest := by
  rw [closeOffset.eq_def]
  rfl

theorem found_behind (part : List Char) (offset : Nat) (found : Option (List Char)) :
    (found.map fun contents => offset + size part + size contents) =
      (found.map (part ++ ·)).map fun contents => offset + size contents := by
  simp [Option.map_map, Function.comp_def, Nat.add_assoc]

/-- With one more brace open for the bytes, both searches end at the same place. -/
theorem closeOffset_bytes (depth offset : Nat) (cs : List Char) :
    closeOffset (depth + 1) offset (bytes cs) =
      .ok ((untilClose depth cs).map fun contents => offset + size contents) := by
  fun_induction untilClose depth cs generalizing offset with
  | case1 => rfl
  | case2 => rfl
  | case3 depth c rest ih =>
    -- The bytes pass over the first byte of `c` only, and the others are plain.
    obtain ⟨b, bs, hc, plain⟩ := utf8EncodeChar_cons c
    have length : c.utf8Size = bs.length + 1 := by
      rw [← String.length_utf8EncodeChar, hc, List.length_cons]
    have pair : bytes ('\\' :: c :: rest) = 0x5c :: b :: (bs ++ bytes rest) := by
      change 0x5c :: (String.utf8EncodeChar c ++ bytes rest) = _
      rw [hc, List.cons_append]
    have behind : offset + 2 + bs.length = offset + size ['\\', c] := by
      have : ('\\').utf8Size = 1 := rfl
      simp only [size, length, this]
      omega
    rw [pair, closeOffset_backslash, closeOffset_plain plain, behind, ih]
    exact congrArg _ (found_behind ['\\', c] offset _)
  | case4 depth rest ih =>
    change closeOffset (depth + 1) offset (0x7b :: bytes rest) = _
    rw [closeOffset_opening, ih]
    exact congrArg _ (found_behind ['{'] offset _)
  | case5 rest =>
    change closeOffset 1 offset (0x7d :: bytes rest) = .ok (some (offset + 0))
    rw [closeOffset.eq_def]
    rfl
  | case6 rest depth ih =>
    change closeOffset (depth + 2) offset (0x7d :: bytes rest) = _
    rw [closeOffset_closing, ih]
    exact congrArg _ (found_behind ['}'] offset _)
  | case7 depth c rest bare escaped opening closing ih =>
    obtain ⟨slash, brace⟩ := plain_of_other bare escaped opening closing
    change closeOffset (depth + 1) offset (String.utf8EncodeChar c ++ bytes rest) = _
    rw [closeOffset_plain (isPlainByte_of_plain slash brace), String.length_utf8EncodeChar, ih]
    exact congrArg _ (found_behind [c] offset _)

theorem braced_append (before body : List Char) :
    braced (before ++ '{' :: body) (size before) = .ok (untilClose 0 body) := by
  have search : closeOffset 0 (size before) (bytes ('{' :: body)) = _ :=
    (closeOffset_opening 0 _ (bytes body)).trans (closeOffset_bytes 0 _ body)
  rw [braced, drop_bytes, search]
  cases found : untilClose 0 body with
  | none => rfl
  | some contents =>
    obtain ⟨-, rest, rfl⟩ := untilClose_eq_some.1 found
    have start : size before + 1 = size (before ++ ['{']) := (Text.size_append before ['{']).symm
    have place : before ++ '{' :: (contents ++ '}' :: rest) =
        before ++ ['{'] ++ (contents ++ '}' :: rest) := by simp
    change (cut (size before + 1) (size before + 1 + size contents) _).bind (.ok ∘ some) = _
    rw [place, start, cut_append]
    rfl

theorem boxContents_append (before tail : List Char) :
    boxContents (before ++ tail) (size before) = .ok (contentsAfter? tail) := by
  obtain ⟨gap, inner, htail, hinner⟩ : ∃ gap inner, tail = gap ++ inner ∧
      tail.dropWhile Text.isBlank = inner :=
    ⟨_, _, List.takeWhile_append_dropWhile.symm, rfl⟩
  have opening : size before + size tail - size inner = size (before ++ gap) := by
    simp only [htail, Text.size_append]
    omega
  have regroup : before ++ tail = before ++ gap ++ inner := by rw [htail, List.append_assoc]
  have byte : (bytes (before ++ tail))[size (before ++ gap)]? = (bytes inner).head? := by
    rw [← List.head?_drop, regroup, drop_bytes]
  have unfolded : boxContents (before ++ tail) (size before) =
      if (bytes inner).head? = some 0x7b then braced (before ++ tail) (size (before ++ gap))
      else return none := by
    rw [boxContents, textFrom_append, ← byte, ← opening, ← hinner]
    rfl
  rw [unfolded, contentsAfter?, hinner]
  by_cases head : (bytes inner).head? = some 0x7b
  · obtain ⟨body, rfl⟩ := head?_bytes head
    rw [if_pos head, regroup]
    exact braced_append _ body
  · rw [if_neg head]
    split
    · exact absurd rfl head
    · rfl

/-! The places where box commands end. -/

def boxCommand? (cs : List Char) : Option (List Char) := boxCommands.find? (·.isPrefixOf cs)

def ends (offset : Nat) : List Char → List Nat
  | [] => []
  | c :: cs =>
    ((boxCommand? (c :: cs)).map (offset + size ·)).toList ++ ends (offset + c.utf8Size) cs

variable {word : List Char}

theorem size_of_boxCommand : ∀ word ∈ boxCommands, 5 ≤ size word ∧ size word ≤ 6 := by decide

theorem exists_of_boxCommand? (h : boxCommand? cs = some word) :
    word ∈ boxCommands ∧ ∃ tail, cs = word ++ tail := by
  have here : word.isPrefixOf cs = true := by simpa using List.find?_some h
  obtain ⟨tail, rfl⟩ := List.isPrefixOf_iff_prefix.1 here
  exact ⟨List.mem_of_find?_eq_some h, tail, rfl⟩

theorem isPrefixOf_eq_decide (h : word ∈ boxCommands) (cs : List Char) :
    word.isPrefixOf cs = decide (boxCommand? cs = some word) := by
  rw [Bool.eq_iff_iff, decide_eq_true_iff]
  refine ⟨fun here => ?_, fun found => List.isPrefixOf_iff_prefix.2 ?_⟩
  · obtain ⟨tail, rfl⟩ := List.isPrefixOf_iff_prefix.1 here
    simp only [boxCommands, List.mem_cons, List.not_mem_nil, or_false] at h
    obtain rfl | rfl := h <;> rfl
  · obtain ⟨-, tail, rfl⟩ := exists_of_boxCommand? found
    exact List.prefix_append word tail

theorem boxCommand?_cases (cs : List Char) : boxCommand? cs = none ∨
    boxCommand? cs = some "\\boxed".toList ∨ boxCommand? cs = some "\\fbox".toList := by
  cases h : boxCommand? cs with
  | none => exact .inl rfl
  | some word =>
    have hword := (exists_of_boxCommand? h).1
    simp only [boxCommands, List.mem_cons, List.not_mem_nil, or_false] at hword
    obtain rfl | rfl := hword
    · exact .inr (.inl rfl)
    · exact .inr (.inr rfl)

theorem distinct_boxCommands : "\\boxed".toList ≠ "\\fbox".toList := by decide

theorem boxHere?_eq_bind (cs : List Char) :
    boxHere? cs = (boxCommand? cs).bind fun word => contentsAfter? (cs.drop word.length) := by
  have boxed := isPrefixOf_eq_decide List.mem_cons_self cs
  have fbox := isPrefixOf_eq_decide (List.mem_cons_of_mem _ List.mem_cons_self) cs
  have distinct := distinct_boxCommands
  rw [boxHere?, boxCommands, List.findSome?_cons, List.findSome?_cons, List.findSome?_nil, boxed,
    fbox]
  obtain h | h | h := boxCommand?_cases cs <;> rw [h] <;> clear boxed fbox h
  · rfl
  · generalize "\\boxed".toList = boxed, "\\fbox".toList = fbox at distinct ⊢
    cases found : contentsAfter? (cs.drop boxed.length) <;> simp [distinct, found]
  · generalize "\\boxed".toList = boxed, "\\fbox".toList = fbox at distinct ⊢
    cases found : contentsAfter? (cs.drop fbox.length) <;> simp [distinct.symm, found]

theorem le_of_mem_ends {stop : Nat} (h : stop ∈ ends offset cs) : offset + 5 ≤ stop := by
  induction cs generalizing offset with
  | nil => cases h
  | cons c cs ih =>
    rw [ends, List.mem_append, Option.mem_toList, Option.map_eq_some_iff] at h
    obtain ⟨word, hword, rfl⟩ | h := h
    · have := (size_of_boxCommand word (exists_of_boxCommand? hword).1).1
      omega
    · have := ih h
      omega

theorem pairwise_ends (offset : Nat) (cs : List Char) : (ends offset cs).Pairwise (· ≤ ·) := by
  induction cs generalizing offset with
  | nil => exact .nil
  | cons c cs ih =>
    rw [ends, List.pairwise_append]
    refine ⟨?_, ih _, fun stop hstop later hlater => ?_⟩
    · cases boxCommand? (c :: cs) <;> simp
    · rw [Option.mem_toList, Option.map_eq_some_iff] at hstop
      obtain ⟨word, hword, rfl⟩ := hstop
      have := (size_of_boxCommand word (exists_of_boxCommand? hword).1).2
      have := le_of_mem_ends hlater
      have := c.utf8Size_pos
      omega

/-- Nothing is passed over with the characters behind a backslash. -/
theorem occurrences_skip (hword : word ∈ boxCommands) {skip : Nat}
    (h : ∀ c ∈ cs.take skip, c ≠ '\\') :
    occurrences word offset skip cs = occurrences word offset 0 cs := by
  induction cs generalizing offset skip with
  | nil => cases skip <;> rfl
  | cons c cs ih =>
    cases skip with
    | zero => rfl
    | succ skip =>
      rw [List.take_succ_cons, List.forall_mem_cons] at h
      obtain ⟨letters, -, rfl⟩ := exists_boxName hword
      have absent : ('\\' :: letters).isPrefixOf (c :: cs) = false := by
        simp [List.isPrefixOf, Ne.symm h.1]
      rw [occurrences, occurrences, absent, if_neg Bool.false_ne_true]
      exact ih h.2

theorem occurrences_cons (hword : word ∈ boxCommands) (offset : Nat) (c : Char)
    (cs : List Char) : occurrences word offset 0 (c :: cs) =
      (if boxCommand? (c :: cs) = some word then [offset] else []) ++
        occurrences word (offset + c.utf8Size) 0 cs := by
  rw [occurrences]
  by_cases here : boxCommand? (c :: cs) = some word
  · obtain ⟨letters, hletters, rfl⟩ := exists_boxName hword
    -- No other command starts among the letters of this one.
    have plain : ∀ c ∈ letters, c ≠ '\\' :=
      fun c hc => (plain_of_isAlpha ((alpha_of_boxName letters hletters).2 c hc)).1
    obtain ⟨-, tail, htail⟩ := exists_of_boxCommand? here
    obtain ⟨rfl, rfl⟩ := List.cons.inj htail
    rw [isPrefixOf_eq_decide hword, if_pos (decide_eq_true here), if_pos here,
      occurrences_skip hword]
    · rfl
    · simpa using plain
  · rw [isPrefixOf_eq_decide hword, if_neg (by simpa using here), if_neg here]
    rfl

theorem perm_ends (offset : Nat) (cs : List Char) :
    (boxCommands.flatMap fun word => (occurrences word offset 0 cs).map (· + size word)).Perm
      (ends offset cs) := by
  induction cs generalizing offset with
  | nil => exact .refl _
  | cons c cs ih =>
    have here : (boxCommands.flatMap fun word =>
        if boxCommand? (c :: cs) = some word then [offset + size word] else []) =
          ((boxCommand? (c :: cs)).map (offset + size ·)).toList := by
      have distinct := distinct_boxCommands
      obtain h | h | h := boxCommand?_cases (c :: cs) <;> rw [h, boxCommands]
      · rfl
      · generalize "\\boxed".toList = boxed, "\\fbox".toList = fbox at distinct ⊢
        simp [distinct]
      · generalize "\\boxed".toList = boxed, "\\fbox".toList = fbox at distinct ⊢
        simp [distinct.symm]
    have apart : (boxCommands.flatMap fun word =>
        (occurrences word offset 0 (c :: cs)).map (· + size word)) =
          boxCommands.flatMap fun word =>
            (if boxCommand? (c :: cs) = some word then [offset + size word] else []) ++
              (occurrences word (offset + c.utf8Size) 0 cs).map (· + size word) := by
      refine List.flatMap_congr fun word hword => ?_
      rw [occurrences_cons hword, List.map_append]
      split <;> rfl
    rw [apart]
    refine (List.flatMap_append_perm _ _ _).symm.trans ?_
    rw [here, ends]
    exact (ih _).append_left _

theorem starts_eq_ends (cs : List Char) : starts cs = ends 0 cs := by
  have sorted : (starts cs).Pairwise fun a b => decide (a ≤ b) = true :=
    List.pairwise_mergeSort (by simpa using fun _ _ _ => Nat.le_trans)
      (by simpa using Nat.le_total) _
  exact List.Perm.eq_of_pairwise (fun _ _ _ _ => Nat.le_antisymm)
    (sorted.imp of_decide_eq_true) (pairwise_ends 0 cs)
    ((List.mergeSort_perm _ _).trans (perm_ends 0 cs))

theorem findSomeM?_ends (before cs : List Char) :
    (ends (size before) cs).findSomeM? (boxContents (before ++ cs)) = .ok (firstBox? cs) := by
  induction cs generalizing before with
  | nil => rfl
  | cons c cs ih =>
    have later : (ends (size before + c.utf8Size) cs).findSomeM?
        (boxContents (before ++ c :: cs)) = .ok (firstBox? cs) := by
      have := ih (before ++ [c])
      rwa [Text.size_append, List.append_assoc] at this
    rw [ends, firstBox?, boxHere?_eq_bind]
    cases h : boxCommand? (c :: cs) with
    | none => exact later
    | some word =>
      obtain ⟨-, tail, htail⟩ := exists_of_boxCommand? h
      have contents := boxContents_append (before ++ word) tail
      rw [Text.size_append, List.append_assoc, ← htail] at contents
      have behind : (c :: cs).drop word.length = tail := by rw [htail, List.drop_left]
      rw [Option.bind_some, behind]
      change (boxContents _ _).bind _ = _
      rw [contents]
      cases contentsAfter? tail with
      | none => exact later
      | some contents => rfl

end Scan

theorem scan_isolate (response : String) : Scan.isolate response = .ok (isolate response) := by
  have found := Scan.findSomeM?_ends [] response.toList
  rw [Scan.isolate, Scan.starts_eq_ends]
  change ((Scan.ends (size []) response.toList).findSomeM?
    (Scan.boxContents ([] ++ response.toList))).bind _ = _
  rw [found]
  rfl

end AnswerKey.Answer

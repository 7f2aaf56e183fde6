/-! Text as a list of characters measured in bytes of its UTF-8 form: blank
characters, trimming, and cutting at byte offsets. -/
namespace AnswerKey.Text

/-- The characters with the Unicode property `White_Space`. -/
def blanks : List Char :=
  ['\t', '\n', '\x0b', '\x0c', '\r', ' ', '\u0085', '\u00a0', '\u1680',
   '\u2000', '\u2001', '\u2002', '\u2003', '\u2004', '\u2005', '\u2006',
   '\u2007', '\u2008', '\u2009', '\u200a', '\u2028', '\u2029', '\u202f',
   '\u205f', '\u3000']

def isBlank (c : Char) : Bool := blanks.contains c

theorem forall_of_all {p : Char → Prop} [DecidablePred p] {cs : List Char}
    (h : cs.all (fun c => decide (p c)) = true) : ∀ c ∈ cs, p c := by
  simpa using h

def trim (cs : List Char) : List Char :=
  ((cs.dropWhile isBlank).reverse.dropWhile isBlank).reverse

def size : List Char → Nat
  | [] => 0
  | c :: cs => c.utf8Size + size cs

@[simp] theorem size_append (a b : List Char) : size (a ++ b) = size a + size b := by
  induction a with
  | nil => simp [size]
  | cons c cs ih => simp [size, ih, Nat.add_assoc]

def dropBytes : Nat → List Char → List Char
  | 0, cs => cs
  | _, [] => []
  | n + 1, c :: cs => dropBytes (n + 1 - c.utf8Size) cs

def takeBytes : Nat → List Char → List Char
  | 0, _ => []
  | _, [] => []
  | n + 1, c :: cs => c :: takeBytes (n + 1 - c.utf8Size) cs

theorem utf8Size_ne_zero (c : Char) : c.utf8Size ≠ 0 := Nat.pos_iff_ne_zero.mp c.utf8Size_pos

theorem utf8Size_of_isDigit {c : Char} (h : c.isDigit = true) : c.utf8Size = 1 := by
  have last : c.val ≤ '9'.val := of_decide_eq_true (Bool.and_eq_true_iff.1 h).2
  exact if_pos (UInt32.le_trans last (by decide))

theorem size_of_digits {ds : List Char} (h : ∀ d ∈ ds, d.isDigit = true) : size ds = ds.length := by
  induction ds with
  | nil => rfl
  | cons d ds ih =>
    have hd := utf8Size_of_isDigit (h d List.mem_cons_self)
    have hds := ih fun x hx => h x (List.mem_cons_of_mem d hx)
    rw [size, hd, hds, List.length_cons, Nat.add_comm]

@[simp] theorem dropBytes_zero (cs : List Char) : dropBytes 0 cs = cs := by
  cases cs <;> rfl

@[simp] theorem takeBytes_zero (cs : List Char) : takeBytes 0 cs = [] := by
  cases cs <;> rfl

theorem exists_size_cons (c : Char) (cs : List Char) :
    ∃ n, size (c :: cs) = n + 1 ∧ c.utf8Size ≤ n + 1 ∧ n + 1 - c.utf8Size = size cs := by
  obtain ⟨k, hk⟩ := Nat.exists_eq_succ_of_ne_zero (utf8Size_ne_zero c)
  refine ⟨k + size cs, ?_, ?_, ?_⟩ <;> simp only [size, hk] <;> omega

theorem dropBytes_size_append (a b : List Char) : dropBytes (size a) (a ++ b) = b := by
  induction a with
  | nil => simp [size]
  | cons c cs ih =>
    obtain ⟨n, hsize, -, hrest⟩ := exists_size_cons c cs
    rw [hsize, List.cons_append, dropBytes, hrest, ih]

theorem takeBytes_size_append (a b : List Char) : takeBytes (size a) (a ++ b) = a := by
  induction a with
  | nil => simp [size]
  | cons c cs ih =>
    obtain ⟨n, hsize, -, hrest⟩ := exists_size_cons c cs
    rw [hsize, List.cons_append, takeBytes, hrest, ih]

def slice (start stop : Nat) (cs : List Char) : List Char :=
  takeBytes (stop - start) (dropBytes start cs)

theorem slice_append (a b c : List Char) :
    slice (size a) (size a + size b) (a ++ (b ++ c)) = b := by
  rw [slice, dropBytes_size_append, Nat.add_sub_cancel_left, takeBytes_size_append]

def join (separator : String) : List String → String
  | [] => ""
  | [s] => s
  | s :: rest => s ++ separator ++ join separator rest

end AnswerKey.Text

import Mathlib.Data.List.Basic

/-! # Words and numerals in a text

Formatted input in the manner of C++ streams, and the splitting of a line into columns.
Which characters are white space is a parameter.
-/

namespace Text

/-- A decimal numeral; leading zeros are allowed. -/
structure Numeral where
  digits : List Char
  ne_nil : digits ≠ []
  isDigit : ∀ c ∈ digits, c.isDigit = true

namespace Numeral

def value (n : Numeral) : Nat := Nat.ofDigitChars 10 n.digits 0

/-- The numeral without leading zeros. -/
def ofNat (n : Nat) : Numeral where
  digits := Nat.toDigits 10 n
  ne_nil := Nat.toDigits_ne_nil
  isDigit := fun _ hc => Nat.isDigit_of_mem_toDigits (by decide) (by decide) hc

@[simp] theorem value_ofNat (n : Nat) : (ofNat n).value = n := Nat.ofDigitChars_ten_toDigits

end Numeral

variable {space : Char → Bool}

/-- A non-empty text without white space. -/
structure IsWord (space : Char → Bool) (w : List Char) : Prop where
  ne_nil : w ≠ []
  not_space : ∀ c ∈ w, space c = false

theorem IsWord.of_all {space : Char → Bool} {w : List Char} (hne : w ≠ [])
    (hall : (w.all fun c => !space c) = true) : IsWord space w :=
  ⟨hne, fun c hc => by simpa using List.all_eq_true.mp hall c hc⟩

theorem Numeral.isWord (n : Numeral) (h : ∀ c, c.isDigit = true → space c = false) :
    IsWord space n.digits := ⟨n.ne_nil, fun c hc => h c (n.isDigit c hc)⟩

/-! ## Input -/

/-- The longest part in front that meets `p`, and the rest. -/
def cut (p : Char → Bool) (s : List Char) : List Char × List Char := (s.takeWhile p, s.dropWhile p)

/-- Skip white space and extract the characters up to the next one; it fails at the end. -/
def readWord (space : Char → Bool) (s : List Char) : Option (List Char × List Char) :=
  match s.dropWhile space with
  | [] => none
  | c :: t => some (cut (fun c => !space c) (c :: t))

/-- An optional sign. -/
def readSign : List Char → Bool × List Char
  | '-' :: t => (true, t)
  | '+' :: t => (false, t)
  | t => (false, t)

/-- Skip white space and extract a number below `bound`. It fails without a digit and when the
number is too large; a negated number wraps around. -/
def readUnsigned (space : Char → Bool) (bound : Nat) (s : List Char) : Option (Nat × List Char) :=
  let signed := readSign (s.dropWhile space)
  let number := cut Char.isDigit signed.2
  let v := Nat.ofDigitChars 10 number.1 0
  if number.1 = [] ∨ bound ≤ v then none
  else some (if signed.1 then (bound - v) % bound else v, number.2)

theorem cut_append {p : Char → Bool} {l t : List Char} {c : Char} (hl : ∀ x ∈ l, p x = true)
    (hc : p c = false) : cut p (l ++ c :: t) = (l, c :: t) := by
  rw [cut, List.takeWhile_append_of_pos hl,
    List.dropWhile_append_of_pos hl, List.takeWhile_cons_of_neg (by simp [hc]),
    List.dropWhile_cons_of_neg (by simp [hc]), List.append_nil]

theorem dropWhile_space {c : Char} {s : List Char} (hc : space c = true) :
    (c :: s).dropWhile space = s.dropWhile space := List.dropWhile_cons_of_pos hc

theorem readWord_space {c : Char} {s : List Char} (hc : space c = true) :
    readWord space (c :: s) = readWord space s := by
  rw [readWord, readWord, dropWhile_space hc]

theorem readUnsigned_space {c : Char} {s : List Char} {bound : Nat} (hc : space c = true) :
    readUnsigned space bound (c :: s) = readUnsigned space bound s := by
  rw [readUnsigned, readUnsigned, dropWhile_space hc]

theorem readWord_append {w t : List Char} {c : Char} (hw : IsWord space w) (hc : space c = true) :
    readWord space (w ++ c :: t) = some (w, c :: t) := by
  cases w with
  | nil => exact absurd rfl hw.ne_nil
  | cons x w =>
      have hx : space x = false := hw.not_space x (List.mem_cons_self ..)
      have hdrop : (x :: w ++ c :: t).dropWhile space = x :: w ++ c :: t :=
        List.dropWhile_cons_of_neg (by simp [hx])
      rw [readWord, hdrop]
      show some (cut (fun c => !space c) (x :: w ++ c :: t)) = _
      rw [cut_append (fun y hy => by simp [hw.not_space y hy]) (by simp [hc])]

/-- A digit is no sign. -/
theorem readSign_digit {c : Char} {s : List Char} (hc : c.isDigit = true) :
    readSign (c :: s) = (false, c :: s) := by
  unfold readSign
  split
  next h =>
    rw [(List.cons.inj h).1] at hc
    exact absurd hc (by decide)
  next h =>
    rw [(List.cons.inj h).1] at hc
    exact absurd hc (by decide)
  · rfl

theorem readUnsigned_append (n : Numeral) {t : List Char} {c : Char} {bound : Nat}
    (hspace : ∀ c, c.isDigit = true → space c = false) (hlt : n.value < bound)
    (hc : c.isDigit = false) :
    readUnsigned space bound (n.digits ++ c :: t) = some (n.value, c :: t) := by
  obtain ⟨x, ds, hds⟩ := List.exists_cons_of_ne_nil n.ne_nil
  have hx : x.isDigit = true := n.isDigit x (by simp [hds])
  have hdrop : (n.digits ++ c :: t).dropWhile space = n.digits ++ c :: t := by
    rw [hds]
    exact List.dropWhile_cons_of_neg (by simp [hspace x hx])
  have hsign : readSign (n.digits ++ c :: t) = (false, n.digits ++ c :: t) := by
    rw [hds]
    exact readSign_digit hx
  have hfit : ¬ (n.digits = [] ∨ bound ≤ Nat.ofDigitChars 10 n.digits 0) := by
    rintro (h | h)
    · exact n.ne_nil h
    · exact absurd hlt (by simpa [Numeral.value] using h)
  simp only [readUnsigned, hdrop, hsign, cut_append n.isDigit hc, if_neg hfit]
  rfl

/-- There is no number at a letter. -/
theorem readUnsigned_letter {c : Char} {t : List Char} {bound : Nat} (hspace : space c = false)
    (hdigit : c.isDigit = false) (hsign : readSign (c :: t) = (false, c :: t)) :
    readUnsigned space bound (c :: t) = none := by
  have hdrop : (c :: t).dropWhile space = c :: t := List.dropWhile_cons_of_neg (by simp [hspace])
  have hcut : cut Char.isDigit (c :: t) = ([], c :: t) := by
    rw [cut, List.takeWhile_cons_of_neg (by simp [hdigit]),
      List.dropWhile_cons_of_neg (by simp [hdigit])]
  simp [readUnsigned, hdrop, hsign, hcut]

theorem readUnsigned_nil {bound : Nat} : readUnsigned space bound [] = none := by
  simp [readUnsigned, readSign, cut]

/-- A word takes at least one character. -/
theorem readWord_length {s w t : List Char} (h : readWord space s = some (w, t)) :
    t.length < s.length := by
  have hle := (List.dropWhile_sublist (l := s) space).length_le
  unfold readWord at h
  split at h
  · simp at h
  next c r hdrop =>
    have hc : space c = false := by
      have hhead := List.head?_dropWhile_not space s
      simpa [hdrop] using hhead
    rw [hdrop] at hle
    simp only [cut, Option.some.injEq, Prod.mk.injEq] at h
    rw [List.dropWhile_cons_of_pos (by simp [hc])] at h
    have hrest := (List.dropWhile_sublist (l := r) fun c => !space c).length_le
    rw [h.2] at hrest
    exact Nat.lt_of_lt_of_le (Nat.lt_succ_of_le hrest) hle

theorem readSign_length (s : List Char) : (readSign s).2.length ≤ s.length := by
  unfold readSign
  split <;> simp

theorem readUnsigned_length {s t : List Char} {bound v : Nat}
    (h : readUnsigned space bound s = some (v, t)) : t.length ≤ s.length := by
  unfold readUnsigned at h
  extract_lets signed number v at h
  split at h
  · simp at h
  simp only [Option.some.injEq, Prod.mk.injEq] at h
  rw [← h.2]
  calc (List.dropWhile Char.isDigit (readSign (s.dropWhile space)).2).length
      ≤ (readSign (s.dropWhile space)).2.length := (List.dropWhile_sublist _).length_le
    _ ≤ (s.dropWhile space).length := readSign_length _
    _ ≤ s.length := (List.dropWhile_sublist _).length_le

/-! ## Columns -/

/-- The words of a line. -/
def words (space : Char → Bool) (s : List Char) : List (List Char) :=
  (s.splitOnP space).filter fun w => !w.isEmpty

theorem words_append_space {c : Char} (hc : space c = true) (s t : List Char) :
    words space (s ++ c :: t) = words space s ++ words space t := by
  unfold words
  rw [List.splitOnP_append_cons s t hc, List.filter_append]

theorem words_of_isWord {w : List Char} (hw : IsWord space w) : words space w = [w] := by
  rw [words, List.splitOnP_eq_singleton hw.not_space]
  simp [hw.ne_nil]

theorem words_nil : words space [] = [] := by simp [words, List.splitOnP_nil]

end Text

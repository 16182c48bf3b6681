import BLinkTree.Lib.Slots

/-! # Arrays that remember what was written

An array of `n` cells, of which those that were never written have no content. A read wants a
cell inside the array that was written, a write a cell inside the array, and a program that
does anything else has no result. The block transfers and the search are made of single reads
and writes. `Holds` compares the array with the function on slot numbers that an array without
bounds is.
-/

/-- An array of `n` cells; `none` is a cell that was never written. -/
abbrev Cells (α : Type) (n : Nat) := Vector (Option α) n

namespace Cells

variable {α : Type} {n m : Nat}

def fresh (α : Type) (n : Nat) : Cells α n := Vector.replicate n none

def read (a : Cells α n) (i : Nat) : Option α := a[i]?.join

def write (a : Cells α n) (i : Nat) (x : α) : Option (Cells α n) :=
  if h : i < n then some (a.set i (some x) h) else none

/-- Read the cells `j .. j + count - 1`. -/
def readBlock (a : Cells α n) : Nat → Nat → Option (List α)
  | _, 0 => some []
  | j, count + 1 => do
      let x ← a.read j
      let xs ← a.readBlock (j + 1) count
      return x :: xs

/-- Write the list from cell `i` on. -/
def writeBlock : Cells α n → Nat → List α → Option (Cells α n)
  | a, _, [] => some a
  | a, i, x :: xs => do
      let a ← a.write i x
      writeBlock a (i + 1) xs

/-- `memcpy(&dst[i], &src[j], count)`. -/
def memcpy (dst : Cells α n) (i : Nat) (src : Cells α m) (j count : Nat) :
    Option (Cells α n) := do
  let xs ← src.readBlock j count
  dst.writeBlock i xs

/-- `memmove(&a[i], &a[j], count)`. -/
def memmove (a : Cells α n) (i j count : Nat) : Option (Cells α n) := a.memcpy i a j count

/-- Open cell `i` of an array with `size` known cells and fill it. -/
def insertAt (a : Cells α n) (i size : Nat) (x : α) : Option (Cells α n) := do
  let a ← if i < size then a.memmove (i + 1) i (size - i) else some a
  a.write i x

/-- The loop of `std::lower_bound` on `[first, first + len)`. -/
def lowerBoundLoop [LinearOrder α] (a : Cells α n) (q : α) : Nat → Nat → Nat → Option Nat
  | 0, first, len => if len = 0 then some first else none
  | fuel + 1, first, len =>
      if len = 0 then some first
      else do
        let half := len / 2
        if (← a.read (first + half)) < q then
          a.lowerBoundLoop q fuel (first + half + 1) (len - half - 1)
        else a.lowerBoundLoop q fuel first half

/-- `std::lower_bound(a, a + size, q) - a`. -/
def lowerBound [LinearOrder α] (a : Cells α n) (size : Nat) (q : α) : Option Nat :=
  a.lowerBoundLoop q size 0 size

/-! ## Agreement with an array without bounds -/

/-- The cells `lo .. hi - 1` are inside the array and were written, with the values of `f`. -/
def Holds (a : Cells α n) (f : Nat → α) (lo hi : Nat) : Prop :=
  ∀ s, lo ≤ s → s < hi → a[s]? = some (some (f s))

variable {a : Cells α n} {b : Cells α m} {f d : Nat → α} {lo hi lo' hi' : Nat}

theorem Holds.empty (a : Cells α n) (f : Nat → α) (lo : Nat) : a.Holds f lo lo :=
  fun _ h1 h2 => absurd h2 (not_lt.mpr h1)

theorem Holds.mono (h : a.Holds f lo hi) (hlo : lo ≤ lo') (hhi : hi' ≤ hi) :
    a.Holds f lo' hi' :=
  fun s h1 h2 => h s (hlo.trans h1) (lt_of_lt_of_le h2 hhi)

theorem Holds.read (h : a.Holds f lo hi) {i : Nat} (h1 : lo ≤ i) (h2 : i < hi) :
    a.read i = some (f i) := by
  simp [Cells.read, h i h1 h2]

/-- A write makes one more cell known. -/
theorem Holds.write (h : a.Holds f lo hi) {i : Nat} (hin : i < n) (x : α)
    (hcover : ∀ s, lo' ≤ s → s < hi' → s = i ∨ lo ≤ s ∧ s < hi) :
    ∃ a', a.write i x = some a' ∧ a'.Holds (Slots.store f i x) lo' hi' := by
  refine ⟨a.set i (some x) hin, dif_pos hin, fun s h1 h2 => ?_⟩
  rw [Vector.getElem?_set]
  by_cases hs : i = s
  · rw [if_pos hs, ← hs, Slots.store_self]
  · rw [if_neg hs, Slots.store_of_ne _ _ (Ne.symm hs)]
    rcases hcover s h1 h2 with he | ⟨h3, h4⟩
    · exact absurd he.symm hs
    · exact h s h3 h4

theorem Holds.readBlock (h : a.Holds f lo hi) {j : Nat} (h1 : lo ≤ j) {count : Nat}
    (h2 : j + count ≤ hi) : a.readBlock j count = some ((List.range' j count).map f) := by
  induction count generalizing j with
  | zero => rfl
  | succ count ih =>
      rw [Cells.readBlock, h.read h1 (by omega), ih (by omega) (by omega), List.range'_succ]
      rfl

/-- A block write changes the cells of the block and no others. -/
theorem writeBlock_eq (a : Cells α n) {i : Nat} (xs : List α) (h : i + xs.length ≤ n) :
    ∃ a', a.writeBlock i xs = some a' ∧
      ∀ s, a'[s]? = if i ≤ s ∧ s < i + xs.length then some xs[s - i]? else a[s]? := by
  induction xs generalizing a i with
  | nil => exact ⟨a, rfl, fun s => (if_neg (by simp)).symm⟩
  | cons x xs ih =>
      rw [List.length_cons] at h
      have hi : i < n := by omega
      rcases ih (a.set i (some x) hi) (i := i + 1) (by omega) with ⟨a', hrun, hget⟩
      refine ⟨a', ?_, fun s => ?_⟩
      · rw [Cells.writeBlock, Cells.write, dif_pos hi]
        exact hrun
      · rw [hget s, List.length_cons, Vector.getElem?_set]
        rcases Nat.lt_trichotomy s i with hs | rfl | hs
        · rw [if_neg (by omega), if_neg (by omega), if_neg (by omega)]
        · rw [if_neg (by omega), if_pos rfl, if_pos (by omega), Nat.sub_self]
          rfl
        · obtain ⟨e, rfl⟩ : ∃ e, s = i + 1 + e := ⟨s - (i + 1), by omega⟩
          have h1 : i + 1 + e - (i + 1) = e := by omega
          have h2 : i + 1 + e - i = e + 1 := by omega
          rw [h1, h2, List.getElem?_cons_succ]
          by_cases hlt : e < xs.length
          · rw [if_pos (by omega), if_pos (by omega)]
          · rw [if_neg (by omega), if_neg (by omega), if_neg (by omega)]

/-- A block copy with known cells as its source and a target inside the array. -/
theorem Holds.memcpy (hd : a.Holds d lo hi) {lo₁ hi₁ : Nat} (hs : b.Holds f lo₁ hi₁)
    {i j count : Nat} (hlo : lo₁ ≤ j) (hhi : j + count ≤ hi₁) (hn : i + count ≤ n)
    (hcover : ∀ s, lo' ≤ s → s < hi' → (i ≤ s ∧ s < i + count) ∨ (lo ≤ s ∧ s < hi)) :
    ∃ a', a.memcpy i b j count = some a' ∧ a'.Holds (Slots.memcpy d i f j count) lo' hi' := by
  have hlen : ((List.range' j count).map f).length = count := by simp
  rcases writeBlock_eq a (i := i) ((List.range' j count).map f) (by omega) with ⟨a', hrun, hget⟩
  refine ⟨a', ?_, fun s h1 h2 => ?_⟩
  · rw [Cells.memcpy, hs.readBlock hlo hhi]
    exact hrun
  · rw [hget s, hlen]
    unfold Slots.memcpy
    by_cases hin : i ≤ s ∧ s < i + count
    · rw [if_pos hin, if_pos hin, List.getElem?_map, List.getElem?_range' (by omega)]
      simp
    · rw [if_neg hin, if_neg hin]
      rcases hcover s h1 h2 with h | ⟨h3, h4⟩
      · exact absurd h hin
      · exact hd s h3 h4

/-- Opening a cell moves the known cells behind it by one. -/
theorem Holds.insertAt {size : Nat} (h : a.Holds f lo size) {i : Nat} (hlo : lo ≤ i)
    (hi : i ≤ size) (hn : size < n) (x : α) :
    ∃ a', a.insertAt i size x = some a' ∧
      a'.Holds (Slots.insertAt f i size x) lo (size + 1) := by
  unfold Cells.insertAt Slots.insertAt
  by_cases hlt : i < size
  · -- cell `i` keeps its content until it is written
    have hmove : ∃ a', a.memmove (i + 1) i (size - i) = some a' ∧
        a'.Holds (Slots.memmove f (i + 1) i (size - i)) lo (size + 1) :=
      h.memcpy h hlo (by omega) (by omega) fun s h1 h2 => by omega
    rcases hmove with ⟨a₁, hrun, h₁⟩
    rcases h₁.write (i := i) (by omega) x (fun s h1 h2 => Or.inr ⟨h1, h2⟩) with ⟨a₂, hwrite, h₂⟩
    refine ⟨a₂, ?_, ?_⟩
    · simp only [if_pos hlt, hrun, Option.bind_eq_bind, Option.bind_some, hwrite]
    · rw [if_pos hlt]
      exact h₂
  · have hend : ∃ a', a.write i x = some a' ∧
        a'.Holds (Slots.store f i x) lo (size + 1) :=
      h.write (by omega) x fun s h1 h2 => by omega
    rcases hend with ⟨a₁, hwrite, h₁⟩
    refine ⟨a₁, ?_, ?_⟩
    · simp only [if_neg hlt, Option.bind_eq_bind, Option.bind_some, hwrite]
    · rw [if_neg hlt]
      exact h₁

section Search

variable [LinearOrder α]

/-- The search looks at known cells only. -/
theorem Holds.lowerBoundLoop (h : a.Holds f lo hi) (q : α) {fuel first len : Nat}
    (hfuel : len ≤ fuel) (h1 : lo ≤ first) (h2 : first + len ≤ hi) :
    a.lowerBoundLoop q fuel first len = some (Slots.lowerBoundLoop f q fuel first len) := by
  induction fuel generalizing first len with
  | zero => exact if_pos (Nat.le_zero.mp hfuel)
  | succ fuel ih =>
      rw [Cells.lowerBoundLoop, Slots.lowerBoundLoop]
      split
      · rfl
      next h0 =>
        simp only [Option.bind_eq_bind, h.read (show lo ≤ first + len / 2 by omega) (by omega),
          Option.bind_some]
        split
        · exact ih (by omega) (by omega) (by omega)
        · exact ih (by omega) h1 (by omega)

theorem Holds.lowerBound {size : Nat} (h : a.Holds f 0 hi) (hs : size ≤ hi) (q : α) :
    a.lowerBound size q = some (Slots.lowerBound f size q) :=
  h.lowerBoundLoop q le_rfl le_rfl (by omega)

end Search

end Cells

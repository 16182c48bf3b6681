import Mathlib.Algebra.Order.Ring.Int
import Mathlib.Data.List.Basic
import Mathlib.Tactic.Common

/-! # Slot arrays with a live prefix

A node keeps its payload in raw slot arrays of which only a prefix is live. An
array is a function on slot numbers, so that the slots behind the live prefix
(and behind the array) still have some content, which nothing is known about.
`memcpy` and `memmove` are the block transfers of the C library; `pairs` reads
the live prefix of two parallel arrays. The order facts about the two binary
searches need the live prefix to be nondecreasing and nothing else.
-/

namespace Slots

variable {α β : Type*}

/-- `memcpy(&dst[i], &src[j], count)`. -/
def memcpy (dst : Nat → α) (i : Nat) (src : Nat → α) (j count : Nat) : Nat → α :=
  fun s => if i ≤ s ∧ s < i + count then src (j + (s - i)) else dst s

/-- `memmove(&a[i], &a[j], count)`. -/
def memmove (a : Nat → α) (i j count : Nat) : Nat → α := memcpy a i a j count

/-- `a[i] = x`. -/
def store (a : Nat → α) (i : Nat) (x : α) : Nat → α :=
  fun s => if s = i then x else a s

theorem store_eq_self (a : Nat → α) (i : Nat) : store a i (a i) = a := by
  funext s
  unfold store
  split
  next h => rw [h]
  · rfl

@[simp] theorem store_self (a : Nat → α) (i : Nat) (x : α) : store a i x i = x := if_pos rfl

theorem store_of_ne (a : Nat → α) {i s : Nat} (x : α) (h : s ≠ i) : store a i x s = a s :=
  if_neg h

/-- Open slot `i` of an array with `n` live slots and fill it. -/
def insertAt (a : Nat → α) (i n : Nat) (x : α) : Nat → α :=
  store (if i < n then memmove a (i + 1) i (n - i) else a) i x

theorem insertAt_of_lt (a : Nat → α) {i n s : Nat} (x : α) (h : s < i) :
    insertAt a i n x s = a s := by
  unfold insertAt memmove memcpy
  rw [store_of_ne _ _ (by omega)]
  split
  · exact if_neg (by omega)
  · rfl

@[simp] theorem insertAt_self (a : Nat → α) (i n : Nat) (x : α) : insertAt a i n x i = x :=
  store_self _ _ _

theorem insertAt_of_gt (a : Nat → α) {i n s : Nat} (x : α) (h : i < s) (hs : s ≤ n) :
    insertAt a i n x s = a (s - 1) := by
  unfold insertAt memmove memcpy
  rw [store_of_ne _ _ (by omega), if_pos (by omega), if_pos (by omega)]
  congr 1
  omega

theorem insertAt_of_size_lt (a : Nat → α) {i n s : Nat} (x : α) (hi : i ≤ n) (hs : n < s) :
    insertAt a i n x s = a s := by
  unfold insertAt memmove memcpy
  rw [store_of_ne _ _ (by omega)]
  split
  · exact if_neg (by omega)
  · rfl

/-- Opening a slot of an array that carries one more slot in front. -/
theorem insertAt_succ (a : Nat → α) {i n : Nat} (h : i ≤ n) (x : α) :
    (fun s => insertAt a (i + 1) (n + 1) x (s + 1)) = insertAt (fun s => a (s + 1)) i n x := by
  funext s
  rcases Nat.lt_trichotomy s i with hs | rfl | hs
  · rw [insertAt_of_lt _ _ (by omega), insertAt_of_lt _ _ hs]
  · rw [insertAt_self, insertAt_self]
  · by_cases hn : s ≤ n
    · rw [insertAt_of_gt _ _ (by omega) (by omega), insertAt_of_gt _ _ hs hn]
      congr 1
      omega
    · rw [insertAt_of_size_lt _ _ (by omega) (by omega),
        insertAt_of_size_lt _ _ h (by omega)]

/-- The live slots decide about the live slots behind an insertion. -/
theorem insertAt_congr {a b : Nat → α} {i n : Nat} (x : α) (hi : i ≤ n)
    (h : ∀ s < n, a s = b s) : ∀ s < n + 1, insertAt a i n x s = insertAt b i n x s := by
  intro s hs
  rcases Nat.lt_trichotomy s i with hlt | rfl | hgt
  · rw [insertAt_of_lt _ _ hlt, insertAt_of_lt _ _ hlt]
    exact h s (by omega)
  · rw [insertAt_self, insertAt_self]
  · rw [insertAt_of_gt _ _ hgt (by omega), insertAt_of_gt _ _ hgt (by omega)]
    exact h _ (by omega)

theorem memcpy_congr {d e a b : Nat → α} {i j count : Nat}
    (h : ∀ s < count, a (j + s) = b (j + s)) {s : Nat} (h1 : i ≤ s) (h2 : s < i + count) :
    memcpy d i a j count s = memcpy e i b j count s := by
  unfold memcpy
  rw [if_pos ⟨h1, h2⟩, if_pos ⟨h1, h2⟩]
  exact h _ (by omega)

/-! ## Slot by slot -/

/-- Single stores, one after the other. -/
def stores (a : Nat → α) (l : List (Nat × α)) : Nat → α :=
  l.foldl (fun a p => store a p.1 p.2) a

/-- The stores of `memcpy(&dst[i], &src[j], count)`, from the first slot on. -/
def copies (i : Nat) (src : Nat → α) (j : Nat) : Nat → List (Nat × α)
  | 0 => []
  | count + 1 => copies i src j count ++ [(i + count, src (j + count))]

/-- The stores of a `memmove` to higher slots, from the last slot on. -/
def moves (i : Nat) (src : Nat → α) (j : Nat) : Nat → List (Nat × α)
  | 0 => []
  | count + 1 => (i + count, src (j + count)) :: moves i src j count

theorem memcpy_zero (d : Nat → α) (i : Nat) (a : Nat → α) (j : Nat) : memcpy d i a j 0 = d := by
  funext s
  unfold memcpy
  exact if_neg (by omega)

theorem store_memcpy (d : Nat → α) (i : Nat) (a : Nat → α) (j count : Nat) :
    store (memcpy d i a j count) (i + count) (a (j + count)) = memcpy d i a j (count + 1) := by
  funext s
  unfold store memcpy
  by_cases hs : s = i + count
  · rw [if_pos hs, if_pos (by omega), hs, Nat.add_sub_cancel_left]
  · rw [if_neg hs]
    by_cases hin : i ≤ s ∧ s < i + count
    · rw [if_pos hin, if_pos (by omega)]
    · rw [if_neg hin, if_neg (by omega)]

theorem memcpy_store (d : Nat → α) (i : Nat) (a : Nat → α) (j count : Nat) :
    memcpy (store d (i + count) (a (j + count))) i a j count = memcpy d i a j (count + 1) := by
  rw [← store_memcpy]
  funext s
  unfold memcpy
  by_cases hs : s = i + count
  · rw [if_neg (by omega), hs, store_self, store_self]
  · rw [store_of_ne _ _ hs, store_of_ne _ _ hs]

theorem stores_copies (d : Nat → α) (i : Nat) (a : Nat → α) (j count : Nat) :
    stores d (copies i a j count) = memcpy d i a j count := by
  induction count with
  | zero => exact (memcpy_zero d i a j).symm
  | succ count ih =>
      unfold stores copies
      rw [List.foldl_append]
      unfold stores at ih
      rw [ih]
      exact store_memcpy d i a j count

theorem stores_moves (d : Nat → α) (i : Nat) (a : Nat → α) (j count : Nat) :
    stores d (moves i a j count) = memcpy d i a j count := by
  induction count generalizing d with
  | zero => exact (memcpy_zero d i a j).symm
  | succ count ih =>
      rw [← memcpy_store, ← ih]
      rfl

/-! ## The live prefix -/

/-- The live prefix of two parallel arrays. -/
def pairs (k : Nat → α) (v : Nat → β) (n : Nat) : List (α × β) :=
  (List.range n).map fun i => (k i, v i)

@[simp] theorem length_pairs (k : Nat → α) (v : Nat → β) (n : Nat) :
    (pairs k v n).length = n := by
  simp [pairs]

@[simp] theorem pairs_zero (k : Nat → α) (v : Nat → β) : pairs k v 0 = [] := rfl

theorem getElem?_pairs (k : Nat → α) (v : Nat → β) (n i : Nat) :
    (pairs k v n)[i]? = if i < n then some (k i, v i) else none := by
  unfold pairs
  split
  · simp [*]
  · simp_all

theorem mem_pairs {k : Nat → α} {v : Nat → β} {n : Nat} {e : α × β} :
    e ∈ pairs k v n ↔ ∃ i < n, e = (k i, v i) := by
  simp [pairs, eq_comm]

theorem map_fst_pairs (k : Nat → α) (v : Nat → β) (n : Nat) :
    (pairs k v n).map Prod.fst = (List.range n).map k := by
  simp [pairs, Function.comp_def]

theorem pairs_congr {k k' : Nat → α} {v v' : Nat → β} {n : Nat}
    (hk : ∀ i < n, k i = k' i) (hv : ∀ i < n, v i = v' i) : pairs k v n = pairs k' v' n := by
  apply List.ext_getElem?
  intro i
  simp only [getElem?_pairs]
  split
  next h => rw [hk i h, hv i h]
  next => rfl

theorem pairs_inj {k k' : Nat → α} {v v' : Nat → β} {n : Nat}
    (h : pairs k v n = pairs k' v' n) {i : Nat} (hi : i < n) : k i = k' i ∧ v i = v' i := by
  have hg : (pairs k v n)[i]? = (pairs k' v' n)[i]? := by rw [h]
  simp only [getElem?_pairs, if_pos hi, Option.some.injEq, Prod.mk.injEq] at hg
  exact hg

theorem take_pairs (k : Nat → α) (v : Nat → β) {m n : Nat} (h : m ≤ n) :
    (pairs k v n).take m = pairs k v m := by
  apply List.ext_getElem?
  intro i
  simp only [List.getElem?_take, getElem?_pairs]
  split
  · rw [if_pos (by omega)]
  · rfl

theorem drop_pairs (k : Nat → α) (v : Nat → β) (m n : Nat) :
    (pairs k v n).drop m = pairs (fun i => k (m + i)) (fun i => v (m + i)) (n - m) := by
  apply List.ext_getElem?
  intro i
  simp only [List.getElem?_drop, getElem?_pairs]
  split <;> split <;> first | rfl | omega

/-- The live prefix around one of its slots. -/
theorem pairs_eq_append (k : Nat → α) (v : Nat → β) {i n : Nat} (h : i < n) :
    pairs k v n = (pairs k v n).take i ++ (k i, v i) :: (pairs k v n).drop (i + 1) := by
  have hi : i < (pairs k v n).length := by simpa using h
  have hget : (pairs k v n)[i] = (k i, v i) := by simp [pairs]
  calc pairs k v n = (pairs k v n).take i ++ (pairs k v n).drop i := (List.take_append_drop ..).symm
    _ = _ := by rw [List.drop_eq_getElem_cons hi, hget]

/-- A position that separates the slots with a property from the others counts them. -/
theorem countP_of_cut {a : Nat → α} {p : α → Bool} {m n : Nat} (hm : m ≤ n)
    (hlo : ∀ i < m, p (a i) = true) (hhi : ∀ i, m ≤ i → i < n → p (a i) = false) :
    ((List.range n).map a).countP p = m := by
  obtain ⟨d, rfl⟩ : ∃ d, n = m + d := ⟨n - m, by omega⟩
  rw [List.range_add, List.map_append, List.countP_append]
  have hleft : ((List.range m).map a).countP p = m := by
    rw [List.countP_eq_length.mpr]
    · simp
    · intro x hx
      obtain ⟨i, hi, rfl⟩ := List.mem_map.mp hx
      exact hlo i (List.mem_range.mp hi)
  have hright : (((List.range d).map (m + ·)).map a).countP p = 0 := by
    rw [List.countP_eq_zero]
    intro x hx
    simp only [List.map_map, List.mem_map, List.mem_range, Function.comp_apply] at hx
    obtain ⟨i, hi, rfl⟩ := hx
    simp [hhi (m + i) (by omega) (by omega)]
  rw [hleft, hright, Nat.add_zero]

/-- Opening a slot splits the live prefix at that place. -/
theorem pairs_insertAt (k : Nat → α) (v : Nat → β) {i n : Nat} (h : i ≤ n) (x : α) (y : β) :
    pairs (insertAt k i n x) (insertAt v i n y) (n + 1) =
      pairs k v i ++ (x, y) :: (pairs k v n).drop i := by
  apply List.ext_getElem?
  intro s
  rcases Nat.lt_trichotomy s i with hs | rfl | hs
  · rw [List.getElem?_append_left (by simpa using hs), getElem?_pairs, getElem?_pairs,
      if_pos (by omega), if_pos hs, insertAt_of_lt _ _ hs, insertAt_of_lt _ _ hs]
  · rw [List.getElem?_append_right (by simp), getElem?_pairs, if_pos (by omega)]
    simp
  · obtain ⟨d, rfl⟩ : ∃ d, s = i + d + 1 := ⟨s - i - 1, by omega⟩
    rw [List.getElem?_append_right (by simp; omega), getElem?_pairs]
    have hidx : i + d + 1 - (pairs k v i).length = d + 1 := by simp; omega
    rw [hidx, List.getElem?_cons_succ, List.getElem?_drop, getElem?_pairs]
    by_cases hn : i + d < n
    · rw [if_pos (by omega), if_pos hn, insertAt_of_gt _ _ hs (by omega),
        insertAt_of_gt _ _ hs (by omega)]
      rfl
    · rw [if_neg (by omega), if_neg hn]

/-! ## Searching the live prefix -/

section Search

variable [LinearOrder α]

/-- Nondecreasing on the live prefix. -/
def Monotone (a : Nat → α) (n : Nat) : Prop := ∀ i j, i ≤ j → j < n → a i ≤ a j

theorem Monotone.of_pairwise {k : Nat → α} {v : Nat → β} {n : Nat}
    (h : (pairs k v n).Pairwise fun a b => a.1 < b.1) : Monotone k n := by
  intro i j hij hj
  rcases Nat.lt_or_eq_of_le hij with hlt | rfl
  · have hp := List.pairwise_iff_getElem.mp h i j (by simp; omega) (by simpa using hj) hlt
    simp only [pairs, List.getElem_map, List.getElem_range] at hp
    exact hp.le
  · exact le_rfl

/-- The loop of `std::lower_bound` on `[first, first + len)`; every round shortens
the interval, so `len` rounds are enough. -/
def lowerBoundLoop (a : Nat → α) (q : α) : Nat → Nat → Nat → Nat
  | 0, first, _ => first
  | fuel + 1, first, len =>
      if len = 0 then first
      else
        let half := len / 2
        if a (first + half) < q then
          lowerBoundLoop a q fuel (first + half + 1) (len - half - 1)
        else lowerBoundLoop a q fuel first half

/-- `std::lower_bound(a, a + n, q) - a`. -/
def lowerBound (a : Nat → α) (n : Nat) (q : α) : Nat := lowerBoundLoop a q n 0 n

theorem lowerBoundLoop_le (a : Nat → α) (q : α) (fuel first len : Nat) :
    lowerBoundLoop a q fuel first len ≤ first + len := by
  induction fuel generalizing first len with
  | zero => simp [lowerBoundLoop]
  | succ fuel ih =>
      simp only [lowerBoundLoop]
      split
      · omega
      · split
        · have := ih (first + len / 2 + 1) (len - len / 2 - 1)
          omega
        · have := ih first (len / 2)
          omega

theorem lowerBound_le (a : Nat → α) (n : Nat) (q : α) : lowerBound a n q ≤ n := by
  have h := lowerBoundLoop_le a q n 0 n
  rwa [Nat.zero_add] at h

theorem lowerBoundLoop_congr {a b : Nat → α} {n : Nat} (h : ∀ i < n, a i = b i) (q : α)
    (fuel first len : Nat) (hn : first + len ≤ n) :
    lowerBoundLoop a q fuel first len = lowerBoundLoop b q fuel first len := by
  induction fuel generalizing first len with
  | zero => rfl
  | succ fuel ih =>
      simp only [lowerBoundLoop]
      split
      · rfl
      · rw [h (first + len / 2) (by omega), ih _ _ (by omega), ih _ _ (by omega)]

/-- The search reads live slots only. -/
theorem lowerBound_congr {a b : Nat → α} {n : Nat} (h : ∀ i < n, a i = b i) (q : α) :
    lowerBound a n q = lowerBound b n q :=
  lowerBoundLoop_congr h q n 0 n (by omega)

/-- The interval keeps every smaller key on its left and every other key on its
right until it is empty. -/
theorem lowerBoundLoop_spec {a : Nat → α} {n : Nat} (ha : Monotone a n) (q : α)
    (fuel first len : Nat) (hfuel : len ≤ fuel) (hn : first + len ≤ n)
    (hlo : ∀ i < first, a i < q) (hhi : ∀ i, first + len ≤ i → i < n → q ≤ a i) :
    (∀ i < lowerBoundLoop a q fuel first len, a i < q) ∧
      ∀ i, lowerBoundLoop a q fuel first len ≤ i → i < n → q ≤ a i := by
  induction fuel generalizing first len with
  | zero =>
      have : len = 0 := by omega
      subst this
      exact ⟨hlo, fun i hi => hhi i hi⟩
  | succ fuel ih =>
      simp only [lowerBoundLoop]
      split
      next h0 =>
        subst h0
        exact ⟨hlo, fun i hi => hhi i hi⟩
      next h0 =>
        split
        next hlt =>
          refine ih _ _ (by omega) (by omega) ?_ ?_
          · intro i hi
            exact lt_of_le_of_lt (ha i (first + len / 2) (by omega) (by omega)) hlt
          · intro i hi
            exact hhi i (by omega)
        next hge =>
          refine ih _ _ (by omega) (by omega) hlo ?_
          intro i hi hin
          exact le_trans (not_lt.mp hge) (ha (first + len / 2) i hi hin)

theorem lt_of_lt_lowerBound {a : Nat → α} {n : Nat} (ha : Monotone a n) {q : α} {i : Nat}
    (h : i < lowerBound a n q) : a i < q :=
  (lowerBoundLoop_spec ha q n 0 n (by omega) (by omega) (by omega)
    (by intros; omega)).1 i h

theorem le_of_lowerBound_le {a : Nat → α} {n : Nat} (ha : Monotone a n) {q : α} {i : Nat}
    (h : lowerBound a n q ≤ i) (hi : i < n) : q ≤ a i :=
  (lowerBoundLoop_spec ha q n 0 n (by omega) (by omega) (by omega)
    (by intros; omega)).2 i h hi

/-- The positions that the loop of `std::lower_bound` reads. -/
def lowerBoundLoopSlots (a : Nat → α) (q : α) : Nat → Nat → Nat → List Nat
  | 0, _, _ => []
  | fuel + 1, first, len =>
      if len = 0 then []
      else
        let half := len / 2
        (first + half) ::
          if a (first + half) < q then
            lowerBoundLoopSlots a q fuel (first + half + 1) (len - half - 1)
          else lowerBoundLoopSlots a q fuel first half

def lowerBoundSlots (a : Nat → α) (n : Nat) (q : α) : List Nat := lowerBoundLoopSlots a q n 0 n

theorem lt_of_mem_lowerBoundLoopSlots {a : Nat → α} {q : α} {fuel first len s : Nat}
    (h : s ∈ lowerBoundLoopSlots a q fuel first len) : s < first + len := by
  induction fuel generalizing first len with
  | zero => simp [lowerBoundLoopSlots] at h
  | succ fuel ih =>
      simp only [lowerBoundLoopSlots] at h
      split at h
      · simp at h
      next h0 =>
        rcases List.mem_cons.mp h with rfl | h
        · omega
        · split at h
          · have := ih h
            omega
          · have := ih h
            omega

theorem lt_of_mem_lowerBoundSlots {a : Nat → α} {n : Nat} {q : α} {s : Nat}
    (h : s ∈ lowerBoundSlots a n q) : s < n := by
  have := lt_of_mem_lowerBoundLoopSlots h
  omega

end Search

end Slots

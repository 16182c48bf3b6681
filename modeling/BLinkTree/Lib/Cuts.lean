import BLinkTree.Lib.Slots

/-! # Positions in strictly ordered arrays

`Cuts a n q j` says where a key belongs in the first `n` slots of an array: behind the
smaller keys and in front of all others. In a strictly ordered array every key has one such
position, whatever search finds it. The rest follows the position of a key through the
operations of a page: a slot is opened, the slots in front of a cut are kept, the slots behind
it are moved to the front of another array.
-/

namespace Slots

section Opens

variable {α β : Type*} {a b : Nat → α} {c d : Nat → β} {n p : Nat} {k : α} {x : β}

/-- `b` is `a` with `k` put in front of slot `p`. -/
structure Opens (a b : Nat → α) (n p : Nat) (k : α) : Prop where
  le : p ≤ n
  before : ∀ s < p, b s = a s
  slot : b p = k
  after : ∀ s, p < s → s ≤ n → b s = a (s - 1)

/-- The slots behind `p` are moved up, and the new slot is written. -/
theorem opens_memmove (a : Nat → α) {len : Nat} (hp : p ≤ n) (hlen : n - p ≤ len) (k : α) :
    Opens a (store (memmove a (p + 1) p len) p k) n p k := by
  refine ⟨hp, fun s hs => ?_, store_self _ _ _, fun s h1 h2 => ?_⟩
  · rw [store_of_ne _ _ (by omega)]
    exact if_neg (by omega)
  · rw [store_of_ne _ _ (by omega)]
    unfold memmove memcpy
    rw [if_pos (by omega)]
    congr 1
    omega

theorem Opens.prod (h : Opens a b n p k) (h' : Opens c d n p x) :
    Opens (fun s => (a s, c s)) (fun s => (b s, d s)) n p (k, x) :=
  ⟨h.le, fun s hs => by rw [h.before s hs, h'.before s hs], by rw [h.slot, h'.slot],
    fun s h1 h2 => by rw [h.after s h1 h2, h'.after s h1 h2]⟩

/-- The contents of an array with an opened slot. -/
theorem Opens.exists_iff (h : Opens a b n p k) {P : α → Prop} :
    (∃ i < n + 1, P (b i)) ↔ P k ∨ ∃ i < n, P (a i) := by
  have hle := h.le
  constructor
  · rintro ⟨i, hi, hP⟩
    rcases Nat.lt_trichotomy i p with hip | rfl | hip
    · rw [h.before i hip] at hP
      exact Or.inr ⟨i, by omega, hP⟩
    · rw [h.slot] at hP
      exact Or.inl hP
    · rw [h.after i hip (by omega)] at hP
      exact Or.inr ⟨i - 1, by omega, hP⟩
  · rintro (hP | ⟨i, hi, hP⟩)
    · refine ⟨p, by omega, ?_⟩
      rw [h.slot]
      exact hP
    · by_cases hip : i < p
      · refine ⟨i, by omega, ?_⟩
        rw [h.before i hip]
        exact hP
      · refine ⟨i + 1, by omega, ?_⟩
        rw [h.after (i + 1) (by omega) (by omega)]
        exact hP

theorem Opens.forall_iff (h : Opens a b n p k) {P : α → Prop} :
    (∀ i < n + 1, P (b i)) ↔ P k ∧ ∀ i < n, P (a i) := by
  have hex := h.exists_iff (P := fun y => ¬ P y)
  constructor
  · intro hall
    refine ⟨by_contra fun hk => ?_, fun i hi => by_contra fun hk => ?_⟩
    · rcases hex.mpr (Or.inl hk) with ⟨j, hj, hne⟩
      exact hne (hall j hj)
    · rcases hex.mpr (Or.inr ⟨i, hi, hk⟩) with ⟨j, hj, hne⟩
      exact hne (hall j hj)
  · rintro ⟨hk, hall⟩ i hi
    by_contra hne
    rcases hex.mp ⟨i, hi, hne⟩ with h1 | ⟨j, hj, h2⟩
    · exact h1 hk
    · exact h2 (hall j hj)

/-- A new entry keeps the entries apart. -/
theorem Opens.inj (h : Opens a b n p k) (ha : ∀ i j, i < n → j < n → a i = a j → i = j)
    (hk : ∀ i < n, a i ≠ k) : ∀ i j, i < n + 1 → j < n + 1 → b i = b j → i = j := by
  have hle := h.le
  -- the slot of `a` that stands in slot `i` of `b`
  have hback : ∀ i < n + 1, i ≠ p →
      (if i < p then i else i - 1) < n ∧ b i = a (if i < p then i else i - 1) := by
    intro i hi hip
    by_cases hlt : i < p
    · rw [if_pos hlt]
      exact ⟨by omega, h.before i hlt⟩
    · rw [if_neg hlt]
      exact ⟨by omega, h.after i (by omega) (by omega)⟩
  intro i j hi hj he
  by_cases hip : i = p
  · by_cases hjp : j = p
    · rw [hip, hjp]
    · rcases hback j hj hjp with ⟨h1, h2⟩
      rw [hip, h.slot, h2] at he
      exact absurd he.symm (hk _ h1)
  · by_cases hjp : j = p
    · rcases hback i hi hip with ⟨h1, h2⟩
      rw [hjp, h.slot, h2] at he
      exact absurd he (hk _ h1)
    · rcases hback i hi hip with ⟨h1, h2⟩
      rcases hback j hj hjp with ⟨h3, h4⟩
      rw [h2, h4] at he
      have hij := ha _ _ h1 h3 he
      split at hij <;> split at hij <;> omega

end Opens

section Cuts

variable {α : Type*} [LinearOrder α]

/-- Strictly increasing on the first `n` slots. -/
def Increasing (a : Nat → α) (n : Nat) : Prop := ∀ i j, i < j → j < n → a i < a j

/-- Position `j` stands behind the keys smaller than `q` and in front of the others. -/
structure Cuts (a : Nat → α) (n : Nat) (q : α) (j : Nat) : Prop where
  le : j ≤ n
  below : ∀ i < j, a i < q
  above : ∀ i, j ≤ i → i < n → q ≤ a i

variable {a b : Nat → α} {n m i j p : Nat} {q k : α}

theorem Increasing.mono (h : Increasing a n) (hm : m ≤ n) : Increasing a m :=
  fun i j hij hj => h i j hij (lt_of_lt_of_le hj hm)

theorem Increasing.le_of_le (h : Increasing a n) (hij : i ≤ j) (hj : j < n) : a i ≤ a j := by
  rcases Nat.lt_or_eq_of_le hij with hlt | rfl
  · exact (h i j hlt hj).le
  · exact le_rfl

theorem Increasing.inj (h : Increasing a n) (hi : i < n) (hj : j < n) (he : a i = a j) :
    i = j := by
  rcases Nat.lt_trichotomy i j with hlt | heq | hgt
  · exact absurd he (h i j hlt hj).ne
  · exact heq
  · exact absurd he.symm (h j i hgt hi).ne

/-- The first position that is not followed by a smaller key. -/
theorem Increasing.exists_cuts (h : Increasing a n) (q : α) : ∃ j, Cuts a n q j := by
  induction n with
  | zero => exact ⟨0, le_rfl, fun i hi => absurd hi (by omega), fun i _ hi => absurd hi (by omega)⟩
  | succ n ih =>
      rcases ih (h.mono (by omega)) with ⟨j, hj⟩
      by_cases hq : j = n ∧ a n < q
      · rcases hq with ⟨rfl, hlt⟩
        refine ⟨j + 1, le_rfl, fun i hi => ?_, fun i h1 h2 => absurd h2 (by omega)⟩
        rcases Nat.lt_or_eq_of_le (Nat.lt_succ_iff.mp hi) with hij | rfl
        · exact hj.below i hij
        · exact hlt
      · refine ⟨j, hj.le.trans (by omega), hj.below, fun i h1 h2 => ?_⟩
        rcases Nat.lt_or_eq_of_le (Nat.lt_succ_iff.mp h2) with hin | rfl
        · exact hj.above i h1 hin
        · rcases Nat.lt_or_eq_of_le hj.le with hlt | rfl
          · exact (hj.above j le_rfl hlt).trans (h j i hlt (by omega)).le
          · exact not_lt.mp fun hc => hq ⟨rfl, hc⟩

theorem Cuts.unique (h : Cuts a n q i) (h' : Cuts a n q j) : i = j := by
  rcases Nat.lt_trichotomy i j with hlt | heq | hgt
  · exact absurd (h'.below i hlt) (not_lt.mpr (h.above i le_rfl (lt_of_lt_of_le hlt h'.le)))
  · exact heq
  · exact absurd (h.below j hgt) (not_lt.mpr (h'.above j le_rfl (lt_of_lt_of_le hgt h.le)))

/-- The slots in front of the position are those with smaller keys. -/
theorem Cuts.slot_lt_iff (h : Cuts a n q j) (hi : i < n) : a i < q ↔ i < j :=
  ⟨fun hlt => not_le.mp fun hle => absurd hlt (not_lt.mpr (h.above i hle hi)), h.below i⟩

/-- A smaller key does not stand behind a larger one. -/
theorem Cuts.mono (h : Cuts a n q i) (h' : Cuts a n k j) (hqk : q ≤ k) : i ≤ j := by
  by_contra hlt
  have hj : j < i := by omega
  have h1 := h.below j hj
  have h2 := h'.above j le_rfl (lt_of_lt_of_le hj h.le)
  exact absurd (lt_of_lt_of_le h1 hqk) (not_lt.mpr h2)

/-- A key in the array has its own slot behind its position. -/
theorem Cuts.of_mem (h : Increasing a n) (hi : i < n) : Cuts a n (a i) i :=
  ⟨hi.le, fun s hs => h s i hs hi, fun _ h1 h2 => h.le_of_le h1 h2⟩

/-- The key at the position of `q` is the only one that can be `q`. -/
theorem Cuts.slot_of_mem (h : Increasing a n) (hj : Cuts a n q j) (hi : i < n) (he : a i = q) :
    i = j := by
  subst he
  exact (Cuts.of_mem h hi).unique hj

theorem Cuts.congr (h : Cuts a n q j) (hab : ∀ s < n, b s = a s) : Cuts b n q j := by
  refine ⟨h.le, fun s hs => ?_, fun s h1 h2 => ?_⟩
  · rw [hab s (lt_of_lt_of_le hs h.le)]
    exact h.below s hs
  · rw [hab s h2]
    exact h.above s h1 h2

/-- The first `m` slots. -/
theorem Cuts.take (h : Cuts a n q j) (hj : j ≤ m) (hm : m ≤ n) : Cuts a m q j :=
  ⟨hj, h.below, fun i h1 h2 => h.above i h1 (lt_of_lt_of_le h2 hm)⟩

/-- The slots from `m` on, moved to the front. -/
theorem Cuts.drop (h : Cuts a n q (m + j)) (hab : ∀ s < n - m, b s = a (m + s)) :
    Cuts b (n - m) q j := by
  have hle := h.le
  refine ⟨by omega, fun s hs => ?_, fun s h1 h2 => ?_⟩
  · rw [hab s (by omega)]
    exact h.below _ (by omega)
  · rw [hab s h2]
    exact h.above _ (by omega) (by omega)

theorem Increasing.drop (h : Increasing a n) (hab : ∀ s < n - m, b s = a (m + s)) :
    Increasing b (n - m) := by
  intro i j hij hj
  rw [hab i (by omega), hab j hj]
  exact h _ _ (by omega) (by omega)

/-! ## A key in front of its position -/

/-- A new key at its position. -/
theorem Increasing.opens (h : Increasing a n) (hb : Opens a b n p k) (hp : Cuts a n k p)
    (hk : p < n → a p ≠ k) : Increasing b (n + 1) := by
  have hlt : ∀ s, p ≤ s → s < n → k < a s := by
    intro s h1 h2
    refine lt_of_le_of_ne (hp.above s h1 h2) fun he => ?_
    obtain rfl := Cuts.slot_of_mem h hp h2 he.symm
    exact hk h2 he.symm
  intro i j hij hj
  rcases Nat.lt_trichotomy j p with hjp | rfl | hjp
  · rw [hb.before i (by omega), hb.before j hjp]
    exact h i j hij (lt_of_lt_of_le hjp hp.le)
  · rw [hb.before i hij, hb.slot]
    exact hp.below i hij
  · rw [hb.after j hjp (by omega)]
    rcases Nat.lt_trichotomy i p with hip | rfl | hip
    · rw [hb.before i hip]
      exact h _ _ (by omega) (by omega)
    · rw [hb.slot]
      exact hlt _ (by omega) (by omega)
    · rw [hb.after i hip (by omega)]
      exact h _ _ (by omega) (by omega)

/-- A key that is not larger than the new one keeps its position. -/
theorem Cuts.opens_le (hq : Cuts a n q j) (hb : Opens a b n p k) (hp : Cuts a n k p)
    (hle : q ≤ k) : Cuts b (n + 1) q j := by
  have hjp := hq.mono hp hle
  refine ⟨hq.le.trans (by omega), fun s hs => ?_, fun s h1 h2 => ?_⟩
  · rw [hb.before s (by omega)]
    exact hq.below s hs
  · rcases Nat.lt_trichotomy s p with hsp | rfl | hsp
    · rw [hb.before s hsp]
      exact hq.above s h1 (lt_of_lt_of_le hsp hp.le)
    · rw [hb.slot]
      exact hle
    · rw [hb.after s hsp (by omega)]
      exact hq.above _ (by omega) (by omega)

/-- A larger key moves up by one. -/
theorem Cuts.opens_gt (hq : Cuts a n q j) (hb : Opens a b n p k) (hp : Cuts a n k p)
    (hlt : k < q) : Cuts b (n + 1) q (j + 1) := by
  have hpj := hp.mono hq hlt.le
  have hjn := hq.le
  refine ⟨Nat.succ_le_succ hq.le, fun s hs => ?_, fun s h1 h2 => ?_⟩
  · rcases Nat.lt_trichotomy s p with hsp | rfl | hsp
    · rw [hb.before s hsp]
      exact hq.below s (by omega)
    · rw [hb.slot]
      exact hlt
    · rw [hb.after s hsp (by omega)]
      exact hq.below _ (by omega)
  · rw [hb.after s (by omega) (by omega)]
    exact hq.above _ (by omega) (by omega)

end Cuts

end Slots

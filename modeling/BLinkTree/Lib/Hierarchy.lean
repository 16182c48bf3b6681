import BLinkTree.Lib.Slots

/-! # Keys and their owners, level by level

On every level each key has one owner. The keys of an owner stay together on all levels above,
so that the owners of a level refine the owners of the level above. An owner is split into the
keys up to a separator and the larger ones, and a new top level puts all keys together. Who the
owners are and how they are found is left open.
-/

namespace Hierarchy

open Slots

variable {κ : Type} [LinearOrder κ]

structure Owners (κ : Type) where
  level : Nat → Nat
  owner : Nat → κ → Nat

namespace Owners

omit [LinearOrder κ] in
/-- `n` owns `q` on its level. -/
def On (g : Owners κ) (n : Nat) (q : κ) : Prop := g.owner (g.level n) q = n

/-- `m` gets the keys of `n` behind `sep`. -/
def split (g : Owners κ) (n : Nat) (sep : κ) (m : Nat) : Owners κ where
  level := store g.level m (g.level n)
  owner l q := if l = g.level n ∧ sep < q ∧ g.owner l q = n then m else g.owner l q

omit [LinearOrder κ] in
/-- `m` gets all keys of a new level. -/
def grow (g : Owners κ) (m level : Nat) : Owners κ where
  level := store g.level m level
  owner := store g.owner level fun _ => m

/-- One owner on one level. -/
def single (κ : Type) : Owners κ where
  level _ := 0
  owner _ _ := 0

end Owners

/-- The owners are the numbers below `count` on the levels up to `top`. -/
structure Nested (g : Owners κ) (count top : Nat) : Prop where
  lt : ∀ l ≤ top, ∀ q, g.owner l q < count
  level_owner : ∀ l ≤ top, ∀ q, g.level (g.owner l q) = l
  level_le : ∀ n < count, g.level n ≤ top
  coherent : ∀ l < top, ∀ q q', g.owner l q = g.owner l q' → g.owner (l + 1) q = g.owner (l + 1) q'
  owned : Nonempty κ → ∀ n < count, ∃ q, g.On n q

variable {g : Owners κ} {count top n m l : Nat} {sep q q' : κ}

omit [LinearOrder κ] in
theorem nested_single (κ : Type) : Nested (Owners.single κ) 1 0 := by
  refine ⟨fun _ _ _ => Nat.one_pos, fun l hl _ => (Nat.le_zero.mp hl).symm, fun _ _ => le_rfl,
    fun l hl => absurd hl (by omega), fun ⟨q⟩ n hn => ⟨q, ?_⟩⟩
  exact (Nat.lt_one_iff.mp hn).symm

omit [LinearOrder κ] in
theorem Nested.on_owner (h : Nested g count top) (hl : l ≤ top) (q : κ) : g.On (g.owner l q) q := by
  unfold Owners.On
  rw [h.level_owner l hl q]

omit [LinearOrder κ] in
/-- The owner of a key on the level above owns all keys of the page. -/
theorem Nested.on_above (h : Nested g count top) (hlt : g.level n < top)
    (hq : g.On n q) (hq' : g.On n q') :
    g.owner (g.level n + 1) q = g.owner (g.level n + 1) q' :=
  h.coherent _ hlt q q' (hq.trans hq'.symm)

/-! ## A split -/

section Split

theorem level_split_of_ne (hm : m ≠ count) : (g.split n sep count).level m = g.level m :=
  store_of_ne _ _ hm

theorem level_split_new : (g.split n sep count).level count = g.level n := store_self _ _ _

theorem owner_split_of_level_ne (hl : l ≠ g.level n) : (g.split n sep count).owner l = g.owner l := by
  funext q
  exact if_neg fun hc => hl hc.1

theorem owner_split_of_ne (h : g.owner l q ≠ n) : (g.split n sep count).owner l q = g.owner l q :=
  if_neg fun hc => h hc.2.2

theorem on_split_of_ne (hm : m < count) (hne : m ≠ n) :
    (g.split n sep count).On m q ↔ g.On m q := by
  unfold Owners.On
  rw [level_split_of_ne hm.ne]
  constructor
  · intro he
    by_cases hc : g.owner (g.level m) q = n
    · by_cases hs : sep < q ∧ g.level m = g.level n
      · have hnew : (g.split n sep count).owner (g.level m) q = count := if_pos ⟨hs.2, hs.1, hc⟩
        omega
      · rwa [show (g.split n sep count).owner (g.level m) q = g.owner (g.level m) q from
          if_neg fun hc' => hs ⟨hc'.2.1, hc'.1⟩] at he
    · rwa [owner_split_of_ne hc] at he
  · intro he
    rw [owner_split_of_ne (by rw [he]; exact hne), he]

theorem on_split_left (hn : n < count) : (g.split n sep count).On n q ↔ g.On n q ∧ q ≤ sep := by
  unfold Owners.On
  rw [level_split_of_ne hn.ne]
  by_cases hc : sep < q ∧ g.owner (g.level n) q = n
  · have hnew : (g.split n sep count).owner (g.level n) q = count := if_pos ⟨rfl, hc.1, hc.2⟩
    rw [hnew]
    exact iff_of_false (by omega) fun h => absurd hc.1 (not_lt.mpr h.2)
  · rw [show (g.split n sep count).owner (g.level n) q = g.owner (g.level n) q from
      if_neg fun hc' => hc hc'.2]
    exact ⟨fun he => ⟨he, not_lt.mp fun hlt => hc ⟨hlt, he⟩⟩, And.left⟩

theorem on_split_right (h : Nested g count top) (hn : n < count) :
    (g.split n sep count).On count q ↔ g.On n q ∧ sep < q := by
  unfold Owners.On
  rw [level_split_new]
  by_cases hc : sep < q ∧ g.owner (g.level n) q = n
  · exact iff_of_true (if_pos ⟨rfl, hc.1, hc.2⟩) ⟨hc.2, hc.1⟩
  · rw [show (g.split n sep count).owner (g.level n) q = g.owner (g.level n) q from
      if_neg fun hc' => hc hc'.2]
    refine iff_of_false ?_ fun he => hc ⟨he.2, he.1⟩
    exact (h.lt _ (h.level_le n hn) q).ne

/-- On the level of the split a common owner was a common owner before. -/
theorem owner_of_owner_split (h : Nested g count top) (hl : l ≤ top)
    (he : (g.split n sep count).owner l q = (g.split n sep count).owner l q') :
    g.owner l q = g.owner l q' := by
  have h1 := h.lt l hl q
  have h2 := h.lt l hl q'
  simp only [Owners.split] at he
  split at he <;> split at he
  next hc hc' => exact hc.2.2.trans hc'.2.2.symm
  all_goals omega

/-- A split whose separator does not cut through an owner one level below. -/
theorem Nested.split (h : Nested g count top) (hn : n < count) (hsep : g.On n sep)
    (hright : ∃ q, g.On n q ∧ sep < q)
    (hapart : ∀ l, l + 1 = g.level n → ∀ q q', g.On n q → g.On n q' →
      g.owner l q = g.owner l q' → (sep < q ↔ sep < q')) :
    Nested (g.split n sep count) (count + 1) top := by
  have hnl := h.level_le n hn
  refine ⟨fun l hl q => ?_, fun l hl q => ?_, fun m hm => ?_, fun l hl q q' he => ?_,
    fun hne m hm => ?_⟩
  · have hlt := h.lt l hl q
    simp only [Owners.split]
    split <;> omega
  · by_cases hc : l = g.level n ∧ sep < q ∧ g.owner l q = n
    · rw [show (g.split n sep count).owner l q = count from if_pos hc, level_split_new]
      exact hc.1.symm
    · rw [show (g.split n sep count).owner l q = g.owner l q from if_neg hc,
        level_split_of_ne (h.lt l hl q).ne]
      exact h.level_owner l hl q
  · by_cases hmc : m = count
    · rw [hmc, level_split_new]
      exact hnl
    · rw [level_split_of_ne hmc]
      exact h.level_le m (by omega)
  · have hold := owner_of_owner_split h hl.le he
    have hup := h.coherent l hl q q' hold
    by_cases hl1 : l + 1 = g.level n
    · by_cases hq : g.owner (l + 1) q = n
      · have hon : g.On n q := by
          unfold Owners.On
          rwa [← hl1]
        have hon' : g.On n q' := by
          unfold Owners.On
          rw [← hl1, ← hup]
          exact hq
        simp only [Owners.split, hup, hapart l hl1 q q' hon hon' hold]
      · rw [owner_split_of_ne hq, owner_split_of_ne (hup ▸ hq)]
        exact hup
    · rw [owner_split_of_level_ne hl1]
      exact hup
  · by_cases hmc : m = count
    · obtain ⟨x, hx, hlt⟩ := hright
      rw [hmc]
      exact ⟨x, (on_split_right h hn).mpr ⟨hx, hlt⟩⟩
    · by_cases hmn : m = n
      · rw [hmn]
        exact ⟨sep, (on_split_left hn).mpr ⟨hsep, le_rfl⟩⟩
      · obtain ⟨x, hx⟩ := h.owned hne m (by omega)
        exact ⟨x, (on_split_of_ne (by omega) hmn).mpr hx⟩

end Split

/-! ## A new level -/

section Grow

omit [LinearOrder κ]

theorem level_grow_of_ne (hm : m ≠ count) : (g.grow count (top + 1)).level m = g.level m :=
  store_of_ne _ _ hm

theorem owner_grow_of_le (hl : l ≤ top) : (g.grow count (top + 1)).owner l = g.owner l :=
  store_of_ne _ _ (by omega)

theorem on_grow_of_lt (h : Nested g count top) (hm : m < count) :
    (g.grow count (top + 1)).On m q ↔ g.On m q := by
  unfold Owners.On
  rw [level_grow_of_ne hm.ne, owner_grow_of_le (h.level_le m hm)]

theorem on_grow_new : (g.grow count (top + 1)).On count q := by
  simp [Owners.On, Owners.grow]

theorem Nested.grow (h : Nested g count top) :
    Nested (g.grow count (top + 1)) (count + 1) (top + 1) := by
  have htop : (g.grow count (top + 1)).owner (top + 1) = fun _ => count := store_self _ _ _
  refine ⟨fun l hl q => ?_, fun l hl q => ?_, fun m hm => ?_, fun l hl q q' he => ?_,
    fun hne m hm => ?_⟩
  · rcases Nat.lt_or_eq_of_le hl with hlt | rfl
    · rw [owner_grow_of_le (by omega)]
      exact (h.lt l (by omega) q).trans (Nat.lt_succ_self _)
    · rw [htop]
      exact Nat.lt_succ_self _
  · rcases Nat.lt_or_eq_of_le hl with hlt | rfl
    · rw [owner_grow_of_le (by omega), level_grow_of_ne (h.lt l (by omega) q).ne]
      exact h.level_owner l (by omega) q
    · rw [htop]
      exact store_self _ _ _
  · by_cases hmc : m = count
    · rw [hmc]
      exact (store_self _ _ _).le
    · rw [level_grow_of_ne hmc]
      exact (h.level_le m (by omega)).trans (Nat.le_succ _)
  · rcases Nat.lt_or_eq_of_le (Nat.lt_succ_iff.mp hl) with hlt | rfl
    · rw [owner_grow_of_le (by omega)] at he ⊢
      exact h.coherent l hlt q q' he
    · rw [htop]
  · by_cases hmc : m = count
    · obtain ⟨q⟩ := hne
      rw [hmc]
      exact ⟨q, on_grow_new⟩
    · obtain ⟨x, hx⟩ := h.owned hne m (by omega)
      exact ⟨x, (on_grow_of_lt h (by omega)).mpr hx⟩

end Grow

end Hierarchy

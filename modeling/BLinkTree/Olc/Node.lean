import BLinkTree.Lib.Cuts

/-! # Pages of the B-tree with optimistic lock coupling

`NodeBase`, `BTreeLeaf` and `BTreeInner` of `btree_olc.h` without their locks. A page is the number
of its creation. Pages come from `new` and the arrays are not initialised, so that a slot behind
the live prefix holds whatever was there before. Keys of an inner page separate: child `i` has
the keys up to `keys[i]`, the last child the larger ones.
-/

namespace BtreeOlc

open Slots

inductive PageType where
  | inner
  | leaf
  deriving DecidableEq

/-- `BTreeLeaf::maxEntries` and `BTreeInner::maxEntries`. -/
structure PageSize where
  leafEntries : Nat
  innerEntries : Nat
  two_le_leafEntries : 2 ≤ leafEntries
  leafEntries_lt : leafEntries < 2 ^ 16
  three_le_innerEntries : 3 ≤ innerEntries
  innerEntries_lt : innerEntries < 2 ^ 16

/-- The smallest pages. -/
def PageSize.smallest : PageSize := ⟨2, 3, le_rfl, by decide, le_rfl, by decide⟩

/-- Pages of `Config::node_size()` bytes with 64-bit keys, payloads and pointers. -/
def PageSize.default : PageSize := ⟨62, 62, by decide, by decide, by decide, by decide⟩

structure Node (κ β : Type) where
  type : PageType
  count : Nat
  keys : Nat → κ
  payloads : Nat → β
  children : Nat → Nat

variable {κ β : Type}

namespace Node

/-- `BTreeLeaf::BTreeLeaf` on the memory of `raw`. -/
def createLeaf (raw : Node κ β) : Node κ β := { raw with type := .leaf, count := 0 }

/-- `BTreeInner::BTreeInner`. -/
def createInner (raw : Node κ β) : Node κ β := { raw with type := .inner, count := 0 }

/-- `isFull` of the page's kind; an inner page never fills its last slot. -/
def isFull (c : PageSize) (n : Node κ β) : Bool :=
  match n.type with
  | .leaf => decide (n.count = c.leafEntries)
  | .inner => decide (n.count = c.innerEntries - 1)

variable [LinearOrder κ]

/-- The loop of `lowerBound`, which looks at a slot before it compares the bounds. -/
def lowerBoundLoop (keys : Nat → κ) (k : κ) : Nat → Nat → Nat → Nat
  | 0, lower, _ => lower
  | fuel + 1, lower, upper =>
      let mid := (upper - lower) / 2 + lower
      if k < keys mid then
        if lower < mid then lowerBoundLoop keys k fuel lower mid else lower
      else if keys mid < k then
        if mid + 1 < upper then lowerBoundLoop keys k fuel (mid + 1) upper else mid + 1
      else mid

def lowerBound (n : Node κ β) (k : κ) : Nat := lowerBoundLoop n.keys k (n.count + 1) 0 n.count

/-- The loop of `lowerBoundBF`; `base` is counted in slots. -/
def lowerBoundBFLoop (keys : Nat → κ) (k : κ) : Nat → Nat → Nat → Nat
  | 0, base, _ => base
  | fuel + 1, base, n =>
      if 1 < n then
        let half := n / 2
        lowerBoundBFLoop keys k fuel (if keys (base + half) < k then base + half else base)
          (n - half)
      else base

def lowerBoundBF (n : Node κ β) (k : κ) : Nat :=
  let base := lowerBoundBFLoop n.keys k n.count 0 n.count
  (if n.keys base < k then 1 else 0) + base

/-- `BTreeLeaf::insert`. -/
def leafInsert (n : Node κ β) (k : κ) (p : β) : Node κ β :=
  if n.count ≠ 0 then
    let pos := n.lowerBound k
    if pos < n.count ∧ n.keys pos = k then
      { n with payloads := store n.payloads pos p }
    else
      { n with
        keys := store (memmove n.keys (pos + 1) pos (n.count - pos)) pos k
        payloads := store (memmove n.payloads (pos + 1) pos (n.count - pos)) pos p
        count := n.count + 1 }
  else
    { n with
      keys := store n.keys 0 k
      payloads := store n.payloads 0 p
      count := n.count + 1 }

/-- `BTreeLeaf::split`: the old page, the new page and `sep`. -/
def leafSplit (n raw : Node κ β) : Node κ β × Node κ β × κ :=
  let newCount := n.count - n.count / 2
  let count := n.count - newCount
  ({ n with count := count },
    { createLeaf raw with
      count := newCount
      keys := memcpy raw.keys 0 n.keys count newCount
      payloads := memcpy raw.payloads 0 n.payloads count newCount },
    n.keys (count - 1))

/-- `BTreeInner::split`. -/
def innerSplit (n raw : Node κ β) : Node κ β × Node κ β × κ :=
  let newCount := n.count - n.count / 2
  let count := n.count - newCount - 1
  ({ n with count := count },
    { createInner raw with
      count := newCount
      keys := memcpy raw.keys 0 n.keys (count + 1) (newCount + 1)
      children := memcpy raw.children 0 n.children (count + 1) (newCount + 1) },
    n.keys count)

/-- `std::swap(a[i], a[j])`. -/
def swap {α : Type} (a : Nat → α) (i j : Nat) : Nat → α := store (store a i (a j)) j (a i)

/-- `BTreeInner::insert`. -/
def innerInsert (n : Node κ β) (k : κ) (child : Nat) : Node κ β :=
  let pos := n.lowerBound k
  { n with
    keys := store (memmove n.keys (pos + 1) pos (n.count - pos + 1)) pos k
    children :=
      swap (store (memmove n.children (pos + 1) pos (n.count - pos + 1)) pos child) pos (pos + 1)
    count := n.count + 1 }

/-- The page of `makeRoot`. -/
def createRoot (raw : Node κ β) (k : κ) (leftChild rightChild : Nat) : Node κ β :=
  { createInner raw with
    count := 1
    keys := store raw.keys 0 k
    children := store (store raw.children 0 leftChild) 1 rightChild }

/-- `inner->children[inner->lowerBound(k)]`. -/
def child (n : Node κ β) (k : κ) : Nat := n.children (n.lowerBound k)

/-- The leaf part of `lookup`: what it writes to `result`. -/
def get (n : Node κ β) (k : κ) : Option β :=
  let pos := n.lowerBound k
  if pos < n.count ∧ n.keys pos = k then some (n.payloads pos) else none

/-- The loop of `scan` over `rounds` slots from `i` on, with `count` payloads written. -/
def scanLoop (payloads : Nat → β) (range : Int) : Nat → Nat → Nat → List β
  | 0, _, _ => []
  | rounds + 1, i, count =>
      if (count : Int) = range then []
      else payloads i :: scanLoop payloads range rounds (i + 1) (count + 1)

/-- The leaf part of `scan`: the `output`. -/
def scan (n : Node κ β) (k : κ) (range : Int) : List β :=
  scanLoop n.payloads range (n.count - n.lowerBound k) (n.lowerBound k) 0

/-! ## Searching -/

variable {n r : Node κ β} {k q : κ} {p : β}

theorem lowerBoundLoop_cuts {keys : Nat → κ} {m : Nat} (h : Increasing keys m)
    {fuel lower upper : Nat} (hfuel : upper - lower ≤ fuel) (hlt : lower < upper)
    (hm : upper ≤ m) (hlo : ∀ i < lower, keys i < k) (hhi : ∀ i, upper ≤ i → i < m → k ≤ keys i) :
    Cuts keys m k (lowerBoundLoop keys k fuel lower upper) := by
  induction fuel generalizing lower upper with
  | zero => omega
  | succ fuel ih =>
      have hmid : (upper - lower) / 2 + lower < upper := by omega
      simp only [lowerBoundLoop]
      split
      next hk =>
        have habove : ∀ i, (upper - lower) / 2 + lower ≤ i → i < m → k ≤ keys i :=
          fun i h1 h2 => hk.le.trans (h.le_of_le h1 h2)
        split
        next hgo => exact ih (by omega) hgo (by omega) hlo habove
        next hstop => exact ⟨by omega, hlo, fun i h1 h2 => habove i (by omega) h2⟩
      next hk =>
        split
        next hk' =>
          have hbelow : ∀ i < (upper - lower) / 2 + lower + 1, keys i < k :=
            fun i hi => lt_of_le_of_lt (h.le_of_le (by omega) (by omega)) hk'
          split
          next hgo => exact ih (by omega) hgo hm hbelow hhi
          next hstop => exact ⟨by omega, hbelow, fun i h1 h2 => hhi i (by omega) h2⟩
        next hk' =>
          have heq : k = keys ((upper - lower) / 2 + lower) :=
            le_antisymm (not_lt.mp hk') (not_lt.mp hk)
          refine ⟨by omega, fun i hi => ?_, fun i h1 h2 => ?_⟩
          · rw [heq]
            exact h i _ hi (by omega)
          · rw [heq]
            exact h.le_of_le h1 h2

/-- The search of an empty page looks at slot 0, which then has to send the key to the left. -/
def Guarded (n : Node κ β) (q : κ) : Prop := n.count = 0 → q ≤ n.keys 0

theorem lowerBound_cuts (h : Increasing n.keys n.count) (hq : n.Guarded q) :
    Cuts n.keys n.count q (n.lowerBound q) := by
  rcases Nat.eq_zero_or_pos n.count with h0 | hpos
  · have hle := hq h0
    have hzero : n.lowerBound q = 0 := by
      unfold lowerBound
      simp only [h0, lowerBoundLoop]
      split
      · rfl
      · exact if_neg (not_lt.mpr hle)
    rw [hzero, h0]
    exact ⟨le_rfl, fun i hi => absurd hi (by omega), fun i _ hi => absurd hi (by omega)⟩
  · exact lowerBoundLoop_cuts h (by omega) hpos le_rfl (fun i hi => absurd hi (by omega))
      fun i h1 h2 => absurd h2 (by omega)

theorem lowerBound_eq (h : Increasing n.keys n.count) (hq : n.Guarded q) {j : Nat}
    (hj : Cuts n.keys n.count q j) : n.lowerBound q = j :=
  (lowerBound_cuts h hq).unique hj

theorem guarded_of_pos (h : 0 < n.count) : n.Guarded q := fun h0 => absurd h0 (by omega)

/-- The last comparison decides about a single slot. -/
theorem cuts_of_single {keys : Nat → κ} {m base : Nat} (hm : base < m)
    (hlo : ∀ i < base, keys i < k) (hhi : ∀ i, base < i → i < m → k ≤ keys i) :
    Cuts keys m k ((if keys base < k then 1 else 0) + base) := by
  by_cases hk : keys base < k
  · rw [if_pos hk]
    refine ⟨by omega, fun i hi => ?_, fun i h1 h2 => hhi i (by omega) h2⟩
    rcases Nat.lt_or_eq_of_le (by omega : i ≤ base) with hlt | rfl
    · exact hlo i hlt
    · exact hk
  · rw [if_neg hk, Nat.zero_add]
    refine ⟨hm.le, hlo, fun i h1 h2 => ?_⟩
    rcases Nat.lt_or_eq_of_le h1 with hlt | rfl
    · exact hhi i hlt h2
    · exact not_lt.mp hk

theorem lowerBoundBFLoop_cuts {keys : Nat → κ} {m : Nat} (h : Increasing keys m)
    {fuel base len : Nat} (hfuel : len ≤ fuel + 1) (hlen : 0 < len) (hm : base + len ≤ m)
    (hlo : ∀ i < base, keys i < k) (hhi : ∀ i, base + len ≤ i → i < m → k ≤ keys i) :
    Cuts keys m k ((if keys (lowerBoundBFLoop keys k fuel base len) < k then 1 else 0) +
      lowerBoundBFLoop keys k fuel base len) := by
  induction fuel generalizing base len with
  | zero =>
      obtain rfl : len = 1 := by omega
      exact cuts_of_single hm hlo hhi
  | succ fuel ih =>
      simp only [lowerBoundBFLoop]
      by_cases h1 : 1 < len
      · rw [if_pos h1]
        by_cases hk : keys (base + len / 2) < k
        · rw [if_pos hk]
          refine ih (by omega) (by omega) (by omega) (fun i hi => ?_) fun i hi => hhi i (by omega)
          exact (h i _ hi (by omega)).trans hk
        · rw [if_neg hk]
          refine ih (by omega) (by omega) (by omega) hlo fun i hi him => ?_
          have hle := not_lt.mp hk
          rcases Nat.lt_or_eq_of_le (by omega : base + len / 2 ≤ i) with hlt | rfl
          · exact hle.trans (h _ i hlt him).le
          · exact hle
      · obtain rfl : len = 1 := by omega
        rw [if_neg h1]
        exact cuts_of_single hm hlo hhi

/-- The search without branches finds the same slot. -/
theorem lowerBoundBF_eq (h : Increasing n.keys n.count) (hpos : 0 < n.count) (q : κ) :
    n.lowerBoundBF q = n.lowerBound q := by
  refine ((lowerBound_eq h (guarded_of_pos hpos) ?_)).symm
  exact lowerBoundBFLoop_cuts h (by omega) hpos (by omega) (fun i hi => absurd hi (by omega))
    fun i h1 h2 => absurd h2 (by omega)

theorem lowerBoundBF_eq_three_keys :
    Node.lowerBoundBF (⟨.inner, 3, fun i => 2 * i, fun _ => 0, fun _ => 0⟩ : Node Nat Nat) 3 =
      Node.lowerBound (⟨.inner, 3, fun i => 2 * i, fun _ => 0, fun _ => 0⟩ : Node Nat Nat) 3 :=
  lowerBoundBF_eq (fun i j hij _ => by show 2 * i < 2 * j; omega) (by decide) 3

/-! ## Leaves -/

/-- The entry of `q` is `x`. -/
def Binds (n : Node κ β) (q : κ) (x : β) : Prop :=
  ∃ i < n.count, n.keys i = q ∧ n.payloads i = x

theorem get_eq_some_iff (h : Increasing n.keys n.count) {x : β} :
    n.get q = some x ↔ n.Binds q x := by
  unfold get
  constructor
  · intro hx
    by_cases hpos : n.lowerBound q < n.count ∧ n.keys (n.lowerBound q) = q
    · rw [if_pos hpos, Option.some.injEq] at hx
      exact ⟨_, hpos.1, hpos.2, hx⟩
    · rw [if_neg hpos] at hx
      exact absurd hx (by simp)
  · rintro ⟨i, hi, rfl, rfl⟩
    rw [lowerBound_eq h (guarded_of_pos (by omega)) (Cuts.of_mem h hi)]
    exact if_pos ⟨hi, rfl⟩

theorem get_eq_of_binds {n m : Node κ β} (hn : Increasing n.keys n.count)
    (hm : Increasing m.keys m.count) (h : ∀ x, n.Binds q x ↔ m.Binds q x) : n.get q = m.get q := by
  ext x
  rw [get_eq_some_iff hn, get_eq_some_iff hm]
  exact h x

theorem get_eq_none (h : Increasing n.keys n.count) (hq : ∀ x, ¬ n.Binds q x) :
    n.get q = none := by
  cases hx : n.get q with
  | none => rfl
  | some x => exact absurd ((get_eq_some_iff h).mp hx) (hq x)

/-- An insert overwrites the payload of its key or opens a slot for it. -/
theorem leafInsert_cases (h : Increasing n.keys n.count) (k : κ) (p : β) :
    (∃ i < n.count, n.keys i = k ∧
      n.leafInsert k p = { n with payloads := store n.payloads i p }) ∨
    (∀ i < n.count, n.keys i ≠ k) ∧ ∃ pos, Cuts n.keys n.count k pos ∧
      Opens n.keys (n.leafInsert k p).keys n.count pos k ∧
      Opens n.payloads (n.leafInsert k p).payloads n.count pos p ∧
      (n.leafInsert k p).count = n.count + 1 ∧ (n.leafInsert k p).type = n.type := by
  unfold leafInsert
  by_cases h0 : n.count ≠ 0
  · have hcut := lowerBound_cuts h (guarded_of_pos (q := k) (Nat.pos_of_ne_zero h0))
    rw [if_pos h0]
    by_cases hpos : n.lowerBound k < n.count ∧ n.keys (n.lowerBound k) = k
    · exact Or.inl ⟨_, hpos.1, hpos.2, if_pos hpos⟩
    · dsimp only
      rw [if_neg hpos]
      refine Or.inr ⟨fun i hi he => ?_, _, hcut, opens_memmove _ hcut.le le_rfl _,
        opens_memmove _ hcut.le le_rfl _, rfl, rfl⟩
      have hslot := Cuts.slot_of_mem h hcut hi he
      rw [hslot] at hi he
      exact hpos ⟨hi, he⟩
  · have hz : n.count = 0 := not_not.mp h0
    rw [if_neg h0, hz]
    refine Or.inr ⟨fun i hi => absurd hi (by omega), 0,
      ⟨le_rfl, fun i hi => absurd hi (by omega), fun i _ hi => absurd hi (by omega)⟩,
      ⟨le_rfl, fun s hs => absurd hs (by omega), store_self n.keys 0 k, fun s h1 h2 => by omega⟩,
      ⟨le_rfl, fun s hs => absurd hs (by omega), store_self n.payloads 0 p,
        fun s h1 h2 => by omega⟩, rfl, rfl⟩

theorem type_leafInsert (h : Increasing n.keys n.count) (k : κ) (p : β) :
    (n.leafInsert k p).type = n.type := by
  rcases leafInsert_cases h k p with ⟨i, _, _, he⟩ | ⟨_, _, _, _, _, _, ht⟩
  · rw [he]
  · exact ht

theorem count_leafInsert_le (h : Increasing n.keys n.count) (k : κ) (p : β) :
    (n.leafInsert k p).count ≤ n.count + 1 := by
  rcases leafInsert_cases h k p with ⟨i, _, _, he⟩ | ⟨_, _, _, _, _, hc, _⟩
  · rw [he]
    exact Nat.le_succ _
  · exact hc.le

theorem count_le_leafInsert (h : Increasing n.keys n.count) (k : κ) (p : β) :
    n.count ≤ (n.leafInsert k p).count := by
  rcases leafInsert_cases h k p with ⟨i, _, _, he⟩ | ⟨_, _, _, _, _, hc, _⟩
  · rw [he]
  · rw [hc]
    exact Nat.le_succ _

theorem increasing_leafInsert (h : Increasing n.keys n.count) (k : κ) (p : β) :
    Increasing (n.leafInsert k p).keys (n.leafInsert k p).count := by
  rcases leafInsert_cases h k p with ⟨i, _, _, he⟩ | ⟨hk, pos, hcut, hkeys, _, hc, _⟩
  · rw [he]
    exact h
  · rw [hc]
    exact h.opens hkeys hcut fun hlt => hk pos hlt

theorem binds_leafInsert (h : Increasing n.keys n.count) (k : κ) (p : β) {x : β} :
    (n.leafInsert k p).Binds q x ↔ if q = k then p = x else n.Binds q x := by
  rcases leafInsert_cases h k p with ⟨i, hi, hki, he⟩ | ⟨hk, pos, _, hkeys, hpay, hc, _⟩
  · rw [he]
    unfold Binds
    by_cases hq : q = k
    · rw [if_pos hq]
      constructor
      · rintro ⟨j, hj, h1, h2⟩
        obtain rfl := h.inj hj hi (h1.trans (hq.trans hki.symm))
        exact (store_self _ _ _).symm.trans h2
      · intro hx
        exact ⟨i, hi, hki.trans hq.symm, (store_self _ _ _).trans hx⟩
    · rw [if_neg hq]
      have hstore : ∀ j < n.count, n.keys j = q → store n.payloads i p j = n.payloads j := by
        intro j _ hj
        refine store_of_ne _ _ fun hji => hq ?_
        rw [← hj, hji, hki]
      constructor
      · rintro ⟨j, hj, h1, h2⟩
        exact ⟨j, hj, h1, (hstore j hj h1).symm.trans h2⟩
      · rintro ⟨j, hj, h1, h2⟩
        exact ⟨j, hj, h1, (hstore j hj h1).trans h2⟩
  · unfold Binds
    rw [hc]
    refine ((hkeys.prod hpay).exists_iff (P := fun e => e.1 = q ∧ e.2 = x)).trans ?_
    by_cases hq : q = k
    · rw [if_pos hq]
      constructor
      · rintro (⟨_, h2⟩ | ⟨i, hi, h1, _⟩)
        · exact h2
        · exact absurd (h1.trans hq) (hk i hi)
      · exact fun hx => Or.inl ⟨hq.symm, hx⟩
    · rw [if_neg hq]
      constructor
      · rintro (⟨h1, _⟩ | hb)
        · exact absurd h1.symm hq
        · exact hb
      · exact Or.inr

theorem get_leafInsert (h : Increasing n.keys n.count) (k : κ) (p : β) (q : κ) :
    (n.leafInsert k p).get q = if q = k then some p else n.get q := by
  ext x
  rw [get_eq_some_iff (increasing_leafInsert h k p), binds_leafInsert h]
  by_cases hq : q = k
  · rw [if_pos hq, if_pos hq, Option.some.injEq]
  · rw [if_neg hq, if_neg hq, get_eq_some_iff h]

/-! ## Splits -/

omit [LinearOrder κ] in
theorem count_leafSplit (hcount : 2 ≤ n.count) :
    0 < (n.leafSplit r).1.count ∧ 0 < (n.leafSplit r).2.1.count ∧
      (n.leafSplit r).1.count + (n.leafSplit r).2.1.count = n.count := by
  simp only [leafSplit]
  omega

section LeafSplit

variable (h : Increasing n.keys n.count) (hcount : 2 ≤ n.count)
include h hcount

theorem increasing_leafSplit :
    Increasing (n.leafSplit r).1.keys (n.leafSplit r).1.count ∧
      Increasing (n.leafSplit r).2.1.keys (n.leafSplit r).2.1.count := by
  refine ⟨h.mono (Nat.sub_le _ _), ?_⟩
  have hlen : (n.leafSplit r).2.1.count = n.count - (n.leafSplit r).1.count := by
    simp only [leafSplit]
    omega
  rw [hlen]
  refine h.drop fun s hs => ?_
  simp only [leafSplit] at hs ⊢
  exact (if_pos ⟨by omega, by omega⟩).trans (by rw [Nat.sub_zero])

/-- The left page has the keys up to the separator. -/
theorem binds_leafSplit_left {x : β} :
    (n.leafSplit r).1.Binds q x ↔ n.Binds q x ∧ q ≤ (n.leafSplit r).2.2 := by
  have hc : n.count - (n.count - n.count / 2) = n.count / 2 := by omega
  simp only [leafSplit, Binds, hc]
  constructor
  · rintro ⟨i, hi, rfl, hx⟩
    exact ⟨⟨i, by omega, rfl, hx⟩, h.le_of_le (by omega) (by omega)⟩
  · rintro ⟨⟨i, hi, rfl, hx⟩, hle⟩
    refine ⟨i, ?_, rfl, hx⟩
    by_contra hge
    exact absurd (h _ i (by omega) hi) (not_lt.mpr hle)

/-- The right page has the larger ones. -/
theorem binds_leafSplit_right {x : β} :
    (n.leafSplit r).2.1.Binds q x ↔ n.Binds q x ∧ (n.leafSplit r).2.2 < q := by
  have hc : n.count - (n.count - n.count / 2) = n.count / 2 := by omega
  simp only [leafSplit, Binds, hc, memcpy]
  constructor
  · rintro ⟨i, hi, hk, hx⟩
    rw [if_pos (by omega), Nat.sub_zero] at hk hx
    subst hk
    exact ⟨⟨_, by omega, rfl, hx⟩, h _ _ (by omega) (by omega)⟩
  · rintro ⟨⟨i, hi, rfl, hx⟩, hlt⟩
    have hge : n.count / 2 ≤ i := by
      by_contra hi'
      exact absurd hlt (not_lt.mpr (h.le_of_le (by omega) (by omega)))
    refine ⟨i - n.count / 2, by omega, ?_, ?_⟩
    · rw [if_pos (by omega)]
      congr 1
      omega
    · rw [if_pos (by omega), ← hx]
      congr 1
      omega

theorem get_leafSplit_left (hq : q ≤ (n.leafSplit r).2.2) :
    (n.leafSplit r).1.get q = n.get q :=
  get_eq_of_binds (increasing_leafSplit h hcount).1 h fun _ =>
    (binds_leafSplit_left h hcount).trans (and_iff_left hq)

theorem get_leafSplit_right (hq : (n.leafSplit r).2.2 < q) :
    (n.leafSplit r).2.1.get q = n.get q :=
  get_eq_of_binds (increasing_leafSplit h hcount).2 h fun _ =>
    (binds_leafSplit_right h hcount).trans (and_iff_left hq)

end LeafSplit

/-! ## Inner pages -/

theorem child_eq (h : Increasing n.keys n.count) (hq : n.Guarded q) {j : Nat}
    (hj : Cuts n.keys n.count q j) : n.child q = n.children j :=
  congrArg n.children (lowerBound_eq h hq hj)

section

omit [LinearOrder κ]

variable (raw : Node κ β) (k : κ) (l r : Nat)

theorem createRoot_key : (raw.createRoot k l r).keys 0 = k := store_self raw.keys 0 k

theorem createRoot_left : (raw.createRoot k l r).children 0 = l :=
  (store_of_ne _ r Nat.zero_ne_one).trans (store_self raw.children 0 l)

theorem createRoot_right : (raw.createRoot k l r).children 1 = r :=
  store_self (store raw.children 0 l) 1 r

end

/-- A page with one key. -/
theorem child_createRoot (raw : Node κ β) (k : κ) (l r : Nat) (q : κ) :
    (raw.createRoot k l r).child q = if k < q then r else l := by
  have hinc : Increasing (raw.createRoot k l r).keys 1 := fun i j hij hj => absurd hj (by omega)
  have hkey := createRoot_key raw k l r
  by_cases hq : k < q
  · have hcut : Cuts (raw.createRoot k l r).keys 1 q 1 := by
      refine ⟨le_rfl, fun i hi => ?_, fun i h1 h2 => absurd h2 (by omega)⟩
      rwa [Nat.lt_one_iff.mp hi, hkey]
    rw [if_pos hq, child_eq hinc (guarded_of_pos Nat.one_pos) hcut, createRoot_right]
  · have hcut : Cuts (raw.createRoot k l r).keys 1 q 0 := by
      refine ⟨Nat.zero_le _, fun i hi => absurd hi (by omega), fun i _ hi => ?_⟩
      rw [Nat.lt_one_iff.mp hi, hkey]
      exact not_lt.mp hq
    rw [if_neg hq, child_eq hinc (guarded_of_pos Nat.one_pos) hcut, createRoot_left]

omit [LinearOrder κ] in
theorem count_innerSplit (hcount : 2 ≤ n.count) :
    0 < (n.innerSplit r).2.1.count ∧
      (n.innerSplit r).1.count + (n.innerSplit r).2.1.count + 1 = n.count ∧
      (n.innerSplit r).2.2 = n.keys (n.innerSplit r).1.count := by
  refine ⟨?_, ?_, rfl⟩ <;> simp only [innerSplit] <;> omega

omit [LinearOrder κ] in
/-- The new page has the slots behind the separator. -/
theorem innerSplit_right {i : Nat} (hi : i ≤ (n.innerSplit r).2.1.count) :
    (n.innerSplit r).2.1.keys i = n.keys ((n.innerSplit r).1.count + 1 + i) ∧
      (n.innerSplit r).2.1.children i = n.children ((n.innerSplit r).1.count + 1 + i) := by
  simp only [innerSplit, memcpy] at hi ⊢
  refine ⟨?_, ?_⟩ <;> exact (if_pos (by omega)).trans (by rw [Nat.sub_zero])

section InnerSplit

variable (h : Increasing n.keys n.count) (hcount : 2 ≤ n.count)
include h hcount

theorem increasing_innerSplit :
    Increasing (n.innerSplit r).1.keys (n.innerSplit r).1.count ∧
      Increasing (n.innerSplit r).2.1.keys (n.innerSplit r).2.1.count := by
  obtain ⟨_, hsum, _⟩ := count_innerSplit (r := r) hcount
  refine ⟨h.mono (by omega), ?_⟩
  have hlen : (n.innerSplit r).2.1.count = n.count - ((n.innerSplit r).1.count + 1) := by omega
  rw [hlen]
  exact h.drop fun s hs => (innerSplit_right (by omega)).1

/-- Keys up to the separator go on with the left page, also when it has no key left. -/
theorem child_innerSplit_left (hq : q ≤ (n.innerSplit r).2.2) :
    (n.innerSplit r).1.Guarded q ∧ (n.innerSplit r).1.child q = n.child q := by
  obtain ⟨_, hsum, hsep⟩ := count_innerSplit (r := r) hcount
  have hguard : (n.innerSplit r).1.Guarded q := by
    intro h0
    rw [hsep, h0] at hq
    exact hq
  obtain ⟨j, hj⟩ := h.exists_cuts q
  have hle : j ≤ (n.innerSplit r).1.count := by
    by_contra hgt
    rw [hsep] at hq
    exact absurd (hj.below _ (by omega)) (not_lt.mpr hq)
  refine ⟨hguard, ?_⟩
  rw [child_eq h (guarded_of_pos (by omega)) hj,
    child_eq (increasing_innerSplit h hcount).1 hguard (hj.take hle (by omega))]
  rfl

/-- The larger ones go on with the new page. -/
theorem child_innerSplit_right (hq : (n.innerSplit r).2.2 < q) :
    (n.innerSplit r).2.1.child q = n.child q := by
  obtain ⟨hpos, hsum, hsep⟩ := count_innerSplit (r := r) hcount
  obtain ⟨j, hj⟩ := h.exists_cuts q
  have hlt : (n.innerSplit r).1.count < j := by
    by_contra hge
    rw [hsep] at hq
    exact absurd (hj.above _ (not_lt.mp hge) (by omega)) (not_le.mpr hq)
  obtain ⟨i, rfl⟩ : ∃ i, j = (n.innerSplit r).1.count + 1 + i := Nat.exists_eq_add_of_le hlt
  have hle := hj.le
  have hi : Cuts (n.innerSplit r).2.1.keys (n.innerSplit r).2.1.count q i := by
    have hdrop := hj.drop fun s hs => (innerSplit_right (r := r) (i := s) (by omega)).1
    rwa [show n.count - ((n.innerSplit r).1.count + 1) = (n.innerSplit r).2.1.count by omega]
      at hdrop
  rw [child_eq h (guarded_of_pos (by omega)) hj,
    child_eq (increasing_innerSplit h hcount).2 (guarded_of_pos hpos) hi]
  exact (innerSplit_right (by omega)).2

end InnerSplit

section InnerInsert

variable {m pos : Nat} (h : Increasing n.keys n.count) (hk : n.Guarded k)
  (hpos : Cuts n.keys n.count k pos)
include h hk hpos

theorem opens_innerInsert :
    Opens n.keys (n.innerInsert k m).keys n.count pos k ∧
      Opens n.children (n.innerInsert k m).children (n.count + 1) (pos + 1) m := by
  have heq := lowerBound_eq h hk hpos
  have hle := hpos.le
  simp only [innerInsert, heq]
  refine ⟨opens_memmove _ hpos.le (by omega) _, by omega, fun s hs => ?_, ?_, fun s h1 h2 => ?_⟩
  · unfold swap
    rw [store_of_ne _ _ (by omega)]
    by_cases hsp : s = pos
    · subst hsp
      rw [store_self, store_of_ne _ _ (by omega)]
      exact (if_pos ⟨le_rfl, by omega⟩).trans (by rw [Nat.sub_self, Nat.add_zero])
    · rw [store_of_ne _ _ hsp, store_of_ne _ _ hsp]
      exact if_neg (by omega)
  · unfold swap
    rw [store_self, store_self]
  · unfold swap
    rw [store_of_ne _ _ (by omega), store_of_ne _ _ (by omega), store_of_ne _ _ (by omega)]
    exact (if_pos ⟨by omega, by omega⟩).trans (congrArg n.children (by omega))

theorem increasing_innerInsert (hne : ∀ i < n.count, n.keys i ≠ k) :
    Increasing (n.innerInsert k m).keys (n.count + 1) :=
  h.opens (opens_innerInsert h hk hpos).1 hpos fun hlt => hne pos hlt

/-- The new page gets the keys behind `k` of the page that had them. -/
theorem child_innerInsert (hne : ∀ i < n.count, n.keys i ≠ k) (hq : n.Guarded q) :
    (n.innerInsert k m).child q =
      if k < q ∧ n.lowerBound q = n.lowerBound k then m else n.child q := by
  obtain ⟨hkeys, hchildren⟩ := opens_innerInsert (m := m) h hk hpos
  have hinc := increasing_innerInsert (m := m) h hk hpos hne
  have hguard : (n.innerInsert k m).Guarded q := guarded_of_pos (Nat.succ_pos _)
  have hj := lowerBound_cuts h hq
  rw [lowerBound_eq h hk hpos]
  by_cases hlt : k < q
  · rw [child_eq hinc hguard (hj.opens_gt hkeys hpos hlt)]
    have hle := hpos.mono hj hlt.le
    by_cases hjp : n.lowerBound q = pos
    · rw [if_pos ⟨hlt, hjp⟩, hjp]
      exact hchildren.slot
    · rw [if_neg fun hc => hjp hc.2]
      exact hchildren.after _ (by omega) (Nat.succ_le_succ hj.le)
  · rw [if_neg fun hc => hlt hc.1, child_eq hinc hguard (hj.opens_le hkeys hpos (not_lt.mp hlt))]
    exact hchildren.before _ (Nat.lt_succ_of_le (hj.mono hpos (not_lt.mp hlt)))

end InnerInsert

/-! ## Scans -/

/-- How many of `m` entries a scan reads; a negative range is no bound. -/
def limit (range : Int) (m : Nat) : Nat := if 0 ≤ range then min m range.toNat else m

theorem scanLoop_eq (payloads : Nat → β) {range : Int} {rounds i written : Nat}
    (hw : 0 ≤ range → (written : Int) ≤ range) :
    scanLoop payloads range rounds i written =
      (List.range' i (limit (if 0 ≤ range then range - written else range) rounds)).map payloads := by
  induction rounds generalizing i written with
  | zero => simp [scanLoop, limit]
  | succ rounds ih =>
      rw [scanLoop]
      by_cases hstop : (written : Int) = range
      · rw [if_pos hstop, if_pos (by omega), limit, if_pos (by omega)]
        have hzero : min (rounds + 1) (range - written).toNat = 0 := by omega
        rw [hzero]
        rfl
      · rw [if_neg hstop, ih (by omega)]
        have hlim : limit (if 0 ≤ range then range - written else range) (rounds + 1) =
            limit (if 0 ≤ range then range - (written + 1 : Nat) else range) rounds + 1 := by
          unfold limit
          by_cases hr : 0 ≤ range
          · have hrest : (written : Int) < range := lt_of_le_of_ne (hw hr) hstop
            simp only [if_pos hr]
            rw [if_pos (by omega), if_pos (by omega)]
            omega
          · simp only [if_neg hr]
        rw [hlim, List.range'_succ, List.map_cons]

theorem scan_eq (n : Node κ β) (k : κ) (range : Int) :
    n.scan k range =
      (List.range' (n.lowerBound k) (limit range (n.count - n.lowerBound k))).map n.payloads := by
  rw [scan, scanLoop_eq n.payloads fun h => h]
  simp

/-- `out` holds the payloads of `ks`, which are consecutive keys of `m` from `k` on. -/
structure Reads (m : κ → Option β) (k : κ) (range : Int) (ks : List κ) (out : List β) : Prop where
  pairwise : ks.Pairwise (· < ·)
  le : ∀ q ∈ ks, k ≤ q
  values : ks.map m = out.map some
  closed : ∀ q x, m q ≠ none → k ≤ q → q ≤ x → x ∈ ks → q ∈ ks
  start : range ≠ 0 → m k ≠ none → k ∈ ks
  length_le : 0 ≤ range → (out.length : Int) ≤ range

/-- A map that agrees up to the last key of the page. -/
theorem Reads.congr {m m' : κ → Option β} {range : Int} {ks : List κ} {out : List β}
    (h : Reads m k range ks out) (hk : m' k = m k)
    (heq : ∀ q x, k ≤ q → q ≤ x → m x ≠ none → m' q = m q) : Reads m' k range ks out := by
  have hbound : ∀ x ∈ ks, m x ≠ none := by
    intro x hx hnone
    have hmem : m x ∈ out.map some := h.values ▸ List.mem_map_of_mem hx
    rw [hnone] at hmem
    simp at hmem
  refine ⟨h.pairwise, h.le, ?_, fun q x hq hkq hqx hx => ?_, fun hr hm => ?_, h.length_le⟩
  · rw [← h.values]
    exact List.map_congr_left fun x hx => heq x x (h.le x hx) le_rfl (hbound x hx)
  · rw [heq q x hkq hqx (hbound x hx)] at hq
    exact h.closed q x hq hkq hqx hx
  · rw [hk] at hm
    exact h.start hr hm

/-- A leaf is scanned from the first key that is not smaller. -/
theorem reads_scan (h : Increasing n.keys n.count) (k : κ) (range : Int) :
    ∃ ks, Reads n.get k range ks (n.scan k range) := by
  rcases Nat.eq_zero_or_pos n.count with h0 | hpos
  · have hnone : ∀ q, n.get q = none := fun q =>
      get_eq_none h fun x ⟨i, hi, _⟩ => absurd hi (by omega)
    have hempty : n.scan k range = [] := by
      simp [scan_eq, limit, h0]
    rw [hempty]
    exact ⟨[], .nil, fun q hq => absurd hq (by simp), rfl, fun q _ hq => absurd (hnone q) hq,
      fun _ hk => absurd (hnone k) hk, fun hr => hr⟩
  have hcut := lowerBound_cuts h (guarded_of_pos (q := k) hpos)
  have hle := hcut.le
  rw [scan_eq]
  generalize hm : limit range (n.count - n.lowerBound k) = m
  have hmle : m ≤ n.count - n.lowerBound k := by
    unfold limit at hm
    split at hm <;> omega
  generalize n.lowerBound k = j at *
  -- the slots from `j` on up to slot `j + m`
  have hslot : ∀ {x}, x ∈ (List.range' j m).map n.keys ↔ ∃ i, j ≤ i ∧ i < j + m ∧ n.keys i = x := by
    intro x
    simp [List.mem_map, List.mem_range'_1, and_assoc]
  refine ⟨(List.range' j m).map n.keys, ?_, fun q hq => ?_, ?_, fun q x hq hkq hqx hx => ?_,
    fun hr hk => ?_, fun hr => ?_⟩
  · rw [List.pairwise_map]
    refine (List.pairwise_lt_range' 1).imp_of_mem fun {a b} _ hb hab => ?_
    exact h a b hab (by have := List.mem_range'_1.mp hb; omega)
  · rcases hslot.mp hq with ⟨i, h1, h2, rfl⟩
    exact hcut.above i h1 (by omega)
  · rw [List.map_map, List.map_map]
    refine List.map_congr_left fun i hi => ?_
    have hmem := List.mem_range'_1.mp hi
    exact (get_eq_some_iff h).mpr ⟨i, by omega, rfl, rfl⟩
  · rcases hslot.mp hx with ⟨i, h1, h2, rfl⟩
    rcases Option.ne_none_iff_exists'.mp hq with ⟨v, hv⟩
    rcases (get_eq_some_iff h).mp hv with ⟨s, hs, rfl, _⟩
    have hjs : j ≤ s := by
      by_contra hlt
      exact absurd (hcut.below s (by omega)) (not_lt.mpr hkq)
    have hsi : s ≤ i := by
      by_contra hlt
      exact absurd (h i s (by omega) hs) (not_lt.mpr hqx)
    exact hslot.mpr ⟨s, hjs, by omega, rfl⟩
  · rcases Option.ne_none_iff_exists'.mp hk with ⟨v, hv⟩
    rcases (get_eq_some_iff h).mp hv with ⟨s, hs, hks, _⟩
    obtain rfl := Cuts.slot_of_mem h hcut hs hks
    refine hslot.mpr ⟨s, le_rfl, ?_, hks⟩
    unfold limit at hm
    split at hm <;> omega
  · simp only [List.length_map, List.length_range']
    unfold limit at hm
    split at hm <;> omega

end Node

end BtreeOlc

import BLinkTree.Chain

/-! # The search invariant

What a search relies on, for every implementation and every interleaving: the right
sibling of a node starts at the node's high key, the separator behind a key starts
at that key, and the first separator starts where the node starts. Leaves
partition the keys; inner nodes need not lie inside any range, so separators may
still be in transit or sit in an unexpected node. `Owner` keeps the separator keys
distinct: a key strictly inside the range of a leaf has never been a separator.
-/

namespace BLinkTree

variable {ι : Type}

/-- The local part of the invariant. -/
structure NodeInv (c : Capacity) (t : Tree) (g : Ghost ι) (n : Nat) : Prop where
  wellFormed : (t.node n).WellFormed c
  leaf_iff : (t.node n).isLeaf = true ↔ g.level n = 0
  level_le : g.level n ≤ g.level t.root
  right_none : (t.node n).rightSibling = none → (t.node n).highKey = maxKey
  right_some : ∀ r, (t.node n).rightSibling = some r →
    (t.node n).highKey < maxKey ∧ r < t.count ∧ g.level r = g.level n ∧
      g.low r = (t.node n).highKey
  leaf_range : (t.node n).isLeaf = true →
    g.low n < (t.node n).highKey ∧
      ∀ e ∈ (t.node n).entries, g.low n ≤ e.1 ∧ e.1 < (t.node n).highKey
  leaf_free : (t.node n).isLeaf = true →
    ∀ k, g.low n < k → k < (t.node n).highKey → g.owner k = .free
  first : (t.node n).isLeaf = false →
    ∃ s, (t.node n).first = some s ∧ s < t.count ∧ g.level s < g.level n ∧ g.low s = g.low n
  sep : ∀ e ∈ (t.node n).seps, e.1 < maxKey ∧ g.owner e.1 = .stored n ∧
    ∃ s, e.2 = some s ∧ s < t.count ∧ g.level s < g.level n ∧ g.low s = e.1

/-- The search invariant. -/
structure Inv (c : Capacity) (t : Tree) (g : Ghost ι) : Prop where
  node : ∀ n < t.count, NodeInv c t g n
  chain : ChainInv t g
  root_lt : t.root < t.count
  low_root : g.low t.root = 0
  top_lt : g.level t.root < t.count

/-- Operation `i` carries separator `x` with key `s`. -/
structure Pending (t : Tree) (g : Ghost ι) (i : ι) (s x : Nat) : Prop where
  key_lt : s < maxKey
  lt_count : x < t.count
  low_eq : g.low x = s
  owner_eq : g.owner s = .pending i

/-- What the other operations can rely on while operation `i` changes the tree. -/
structure Evolves (i : ι) (t : Tree) (g : Ghost ι) (t' : Tree) (g' : Ghost ι) : Prop where
  count_le : t.count ≤ t'.count
  low_eq : ∀ n < t.count, g'.low n = g.low n
  level_eq : ∀ n < t.count, g'.level n = g.level n
  isLeaf_eq : ∀ n < t.count, (t'.node n).isLeaf = (t.node n).isLeaf
  highKey_le : ∀ n < t.count, (t.node n).isLeaf = true →
    (t'.node n).highKey ≤ (t.node n).highKey
  pending : ∀ j, j ≠ i → ∀ k, g.owner k = .pending j → g'.owner k = .pending j

theorem Evolves.refl (i : ι) (t : Tree) (g : Ghost ι) : Evolves i t g t g :=
  ⟨le_rfl, fun _ _ => rfl, fun _ _ => rfl, fun _ _ => rfl, fun _ _ _ => le_rfl,
    fun _ _ _ h => h⟩

theorem Evolves.trans {i : ι} {t t' t'' : Tree} {g g' g'' : Ghost ι}
    (h : Evolves i t g t' g') (h' : Evolves i t' g' t'' g'') : Evolves i t g t'' g'' := by
  have hlt : ∀ n, n < t.count → n < t'.count := fun n hn => lt_of_lt_of_le hn h.count_le
  refine ⟨h.count_le.trans h'.count_le, ?_, ?_, ?_, ?_, ?_⟩
  · exact fun n hn => (h'.low_eq n (hlt n hn)).trans (h.low_eq n hn)
  · exact fun n hn => (h'.level_eq n (hlt n hn)).trans (h.level_eq n hn)
  · exact fun n hn => (h'.isLeaf_eq n (hlt n hn)).trans (h.isLeaf_eq n hn)
  · intro n hn hl
    have hl' : (t'.node n).isLeaf = true := (h.isLeaf_eq n hn).trans hl
    exact (h'.highKey_le n (hlt n hn) hl').trans (h.highKey_le n hn hl)
  · exact fun j hj k hk => h'.pending j hj k (h.pending j hj k hk)

theorem Pending.evolves {i j : ι} {t t' : Tree} {g g' : Ghost ι} {s x : Nat}
    (h : Pending t g j s x) (he : Evolves i t g t' g') (hj : j ≠ i) : Pending t' g' j s x :=
  ⟨h.key_lt, lt_of_lt_of_le h.lt_count he.count_le,
    (he.low_eq x h.lt_count).trans h.low_eq, he.pending j hj s h.owner_eq⟩

theorem NodeInv.highKey_le {c : Capacity} {t : Tree} {g : Ghost ι} {n : Nat}
    (h : NodeInv c t g n) : (t.node n).highKey ≤ maxKey := by
  cases hr : (t.node n).rightSibling with
  | none => exact (h.right_none hr).le
  | some r => exact (h.right_some r hr).1.le

theorem NodeInv.inner_of_level_pos {c : Capacity} {t : Tree} {g : Ghost ι} {n : Nat}
    (h : NodeInv c t g n) (hlv : 0 < g.level n) : (t.node n).isLeaf = false := by
  cases hl : (t.node n).isLeaf with
  | false => rfl
  | true =>
      have := h.leaf_iff.mp hl
      omega

/-! ## Searching -/

/-- A right move stays on the level and does not pass the searched key. -/
theorem Inv.right_move {c : Capacity} {t : Tree} {g : Ghost ι} (h : Inv c t g) {n q : Nat}
    (hn : n < t.count) (hq : q < maxKey) (hh : (t.node n).highKey ≤ q) :
    ∃ r, (t.node n).rightSibling = some r ∧ r < t.count ∧ g.low r ≤ q ∧
      g.level r = g.level n ∧ (t.node r).isLeaf = (t.node n).isLeaf := by
  have hi := h.node n hn
  cases hr : (t.node n).rightSibling with
  | none =>
      have := hi.right_none hr
      omega
  | some r =>
      obtain ⟨_, hrc, hlv, hlow⟩ := hi.right_some r hr
      refine ⟨r, rfl, hrc, by omega, hlv, ?_⟩
      have h1 := (h.node r hrc).leaf_iff
      have h2 := hi.leaf_iff
      rw [hlv, ← h2] at h1
      exact Bool.eq_iff_iff.mpr h1

/-- The child that `child` returns starts no later than the searched key. -/
theorem NodeInv.child {c : Capacity} {t : Tree} {g : Ghost ι} {n q : Nat}
    (h : NodeInv c t g n) (hi : (t.node n).isLeaf = false) (hlow : g.low n ≤ q) :
    ∃ s, (t.node n).child q = some s ∧ s < t.count ∧ g.low s ≤ q ∧ g.level s < g.level n := by
  have hw := h.wellFormed
  have hsize : (t.node n).size < 2 ^ 14 :=
    lt_of_le_of_lt hw.size_le ((t.node n).capacity_lt c)
  obtain ⟨hle, hkeys, _⟩ := Node.childSlot_spec hw.monotone hsize.le q
  unfold Node.child
  cases hslot : (t.node n).childSlot q with
  | zero =>
      obtain ⟨s, hs, hsc, hlv, hls⟩ := h.first hi
      refine ⟨s, ?_, hsc, hls.le.trans hlow, hlv⟩
      simpa [Node.first, hi] using hs
  | succ m =>
      have hmem : ((t.node n).keys m, (t.node n).separators (m + 1)) ∈ (t.node n).seps := by
        rw [Node.seps_of_inner hi]
        exact Slots.mem_pairs.mpr ⟨m, by omega, rfl⟩
      obtain ⟨_, _, s, hs, hsc, hlv, hls⟩ := h.sep _ hmem
      refine ⟨s, hs, hsc, ?_, hlv⟩
      have := hkeys m (by omega)
      simp only at hls
      omega

theorem right_induction_of_linked {t : Tree} {P : Nat → Prop} {l : List Nat} (hl : Linked t l)
    (hlt : ∀ n ∈ l, n < t.count)
    (step : ∀ n < t.count, (∀ r, (t.node n).rightSibling = some r → P r) → P n) :
    ∀ n ∈ l, P n := by
  induction l with
  | nil => simp
  | cons a l ih =>
      have hrest := ih hl.2 fun n hn => hlt n (List.mem_cons_of_mem _ hn)
      intro n hn
      rcases List.mem_cons.mp hn with rfl | hn
      · refine step n (hlt n (List.mem_cons_self ..)) fun r hr => hrest r ?_
        rw [hl.1] at hr
        exact List.mem_of_mem_head? hr
      · exact hrest n hn

/-- Moves to the right end. -/
theorem Inv.right_induction {c : Capacity} {t : Tree} {g : Ghost ι} (h : Inv c t g)
    {P : Nat → Prop} (step : ∀ n < t.count, (∀ r, (t.node n).rightSibling = some r → P r) → P n) :
    ∀ n < t.count, P n := by
  intro n hn
  refine right_induction_of_linked (h.chain.linked (g.level n)) (fun m hm => ?_) step n
    ((h.chain.mem _ n).mpr ⟨hn, rfl⟩)
  exact ((h.chain.mem _ m).mp hm).1

/-- Searches end: a step of the search for `k` goes to the right sibling of a node that ends
before `k`, or to the child for `k`. -/
theorem Inv.search_induction {c : Capacity} {t : Tree} {g : Ghost ι} (h : Inv c t g) {k : Nat}
    (hk : k < maxKey) {P : Nat → Prop}
    (step : ∀ n < t.count, g.low n ≤ k →
      (∀ r, (t.node n).highKey ≤ k → (t.node n).rightSibling = some r → P r) →
      (∀ s, (t.node n).isLeaf = false → (t.node n).child k = some s → P s) → P n) :
    ∀ n < t.count, g.low n ≤ k → P n := by
  suffices hlevel : ∀ l, ∀ n < t.count, g.level n ≤ l → g.low n ≤ k → P n from
    fun n hn hlow => hlevel (g.level n) n hn le_rfl hlow
  have hmove : ∀ {n r}, n < t.count → (t.node n).highKey ≤ k →
      (t.node n).rightSibling = some r → g.low r ≤ k ∧ g.level r = g.level n := by
    intro n r hn hh hr
    rcases h.right_move hn hk hh with ⟨r', h1, _, h3, h4, _⟩
    rw [hr, Option.some.injEq] at h1
    subst h1
    exact ⟨h3, h4⟩
  -- the children are on lower levels; on one level the moves to the right end
  intro l
  induction l with
  | zero =>
      refine h.right_induction fun n hn hright hlv hlow => step n hn hlow ?_ ?_
      · intro r hh hr
        rcases hmove hn hh hr with ⟨h3, h4⟩
        exact hright r hr (by omega) h3
      · intro s hl _
        have hleaf := (h.node n hn).leaf_iff.mpr (Nat.le_zero.mp hlv)
        rw [hl] at hleaf
        exact absurd hleaf (by decide)
  | succ l ih =>
      refine h.right_induction fun n hn hright hlv hlow => step n hn hlow ?_ ?_
      · intro r hh hr
        rcases hmove hn hh hr with ⟨h3, h4⟩
        exact hright r hr (by omega) h3
      · intro s hl hs
        rcases (h.node n hn).child hl hlow with ⟨s', h1, h2, h3, h4⟩
        rw [hs, Option.some.injEq] at h1
        subst h1
        exact ih s h2 (by omega) h3

/-! ## Ranges along a chain -/

/-- Every node of the list ends before the next ones start. -/
def Ordered (t : Tree) (g : Ghost ι) (l : List Nat) : Prop :=
  l.Pairwise fun a b => (t.node a).highKey ≤ g.low b

/-- Linked nodes with nonempty ranges are ordered. -/
theorem Inv.ordered_of_linked {c : Capacity} {t : Tree} {g : Ghost ι} (h : Inv c t g)
    {l : List Nat} (hl : Linked t l)
    (hmem : ∀ n ∈ l, n < t.count ∧ g.low n < (t.node n).highKey) : Ordered t g l := by
  induction l with
  | nil => exact List.Pairwise.nil
  | cons a l ih =>
      have hrest := ih hl.2 fun n hn => hmem n (by simp [hn])
      refine List.pairwise_cons.mpr ⟨?_, hrest⟩
      cases l with
      | nil => simp
      | cons b l =>
          have hab := ((h.node a (hmem a (by simp)).1).right_some b hl.1).2.2.2
          have hlt := (hmem b (by simp)).2
          intro d hd
          rcases List.mem_cons.mp hd with rfl | hd
          · exact hab.ge
          · have := (List.pairwise_cons.mp hrest).1 d hd
            omega

/-- Two nodes of an ordered list whose ranges meet are the same node. -/
theorem Ordered.eq_of_mem {t : Tree} {g : Ghost ι} {l : List Nat} (h : Ordered t g l)
    {n m k : Nat} (hn : n ∈ l) (hm : m ∈ l) (hn1 : g.low n ≤ k) (hn2 : k < (t.node n).highKey)
    (hm1 : g.low m ≤ k) (hm2 : k < (t.node m).highKey) : n = m := by
  by_contra hne
  obtain ⟨pre, post, he⟩ := List.append_of_mem hn
  rw [Ordered, he] at h
  rw [he] at hm
  obtain ⟨_, h2, h3⟩ := List.pairwise_append.mp h
  rcases List.mem_append.mp hm with hmp | hmp
  · have := h3 m hmp n (by simp)
    omega
  · rcases List.mem_cons.mp hmp with heq | hmp
    · exact hne heq.symm
    · have := (List.pairwise_cons.mp h2).1 m hmp
      omega

theorem Inv.chain_ordered {c : Capacity} {t : Tree} {g : Ghost ι} (h : Inv c t g) :
    Ordered t g (g.chain 0) := by
  refine h.ordered_of_linked (h.chain.linked 0) fun n hn => ?_
  obtain ⟨hnc, hlv⟩ := (h.chain.mem 0 n).mp hn
  have hi := h.node n hnc
  exact ⟨hnc, (hi.leaf_range (hi.leaf_iff.mpr hlv)).1⟩

/-- Two leaves whose ranges meet are the same leaf. -/
theorem Inv.leaf_unique {c : Capacity} {t : Tree} {g : Ghost ι} (h : Inv c t g) {n m k : Nat}
    (hn : n < t.count) (hm : m < t.count) (hnl : (t.node n).isLeaf = true)
    (hml : (t.node m).isLeaf = true) (hn1 : g.low n ≤ k) (hn2 : k < (t.node n).highKey)
    (hm1 : g.low m ≤ k) (hm2 : k < (t.node m).highKey) : n = m := by
  have hn0 : n ∈ g.chain 0 := (h.chain.mem 0 n).mpr ⟨hn, (h.node n hn).leaf_iff.mp hnl⟩
  have hm0 : m ∈ g.chain 0 := (h.chain.mem 0 m).mpr ⟨hm, (h.node m hm).leaf_iff.mp hml⟩
  exact h.chain_ordered.eq_of_mem hn0 hm0 hn1 hn2 hm1 hm2

/-! ## Nodes that an operation does not touch -/

/-- What a node says about itself survives every change that keeps the bounds and the
levels of the old nodes and the places of the node's own keys. -/
theorem NodeInv.frame {c : Capacity} {t t' : Tree} {g g' : Ghost ι} {n : Nat}
    (h : NodeInv c t g n) (hn : n < t.count)
    (hnode : t'.node n = t.node n) (hcount : t.count ≤ t'.count)
    (hlow : ∀ m < t.count, g'.low m = g.low m)
    (hlevel : ∀ m < t.count, g'.level m = g.level m)
    (htop : g.level t.root ≤ g'.level t'.root)
    (hstored : ∀ k, g.owner k = .stored n → g'.owner k = .stored n)
    (hfree : (t.node n).isLeaf = true → ∀ k, g.low n < k → k < (t.node n).highKey →
      g.owner k = .free → g'.owner k = .free) :
    NodeInv c t' g' n := by
  refine ⟨?_, ?_, ?_, ?_, ?_, ?_, ?_, ?_, ?_⟩
  · rw [hnode]
    exact h.wellFormed
  · rw [hnode, hlevel n hn]
    exact h.leaf_iff
  · rw [hlevel n hn]
    exact h.level_le.trans htop
  · rw [hnode]
    exact h.right_none
  · rw [hnode]
    intro r hr
    obtain ⟨h1, h2, h3, h4⟩ := h.right_some r hr
    exact ⟨h1, by omega, by rw [hlevel r h2, hlevel n hn, h3], by rw [hlow r h2, h4]⟩
  · rw [hnode, hlow n hn]
    exact h.leaf_range
  · rw [hnode, hlow n hn]
    intro hl k h1 h2
    exact hfree hl k h1 h2 (h.leaf_free hl k h1 h2)
  · rw [hnode]
    intro hl
    obtain ⟨s, h1, h2, h3, h4⟩ := h.first hl
    exact ⟨s, h1, by omega, by rw [hlevel s h2, hlevel n hn]; exact h3,
      by rw [hlow s h2, hlow n hn]; exact h4⟩
  · rw [hnode]
    intro e he
    obtain ⟨h0, h1, s, h2, h3, h4, h5⟩ := h.sep e he
    exact ⟨h0, hstored _ h1, s, h2, by omega,
      by rw [hlevel s h3, hlevel n hn]; exact h4, by rw [hlow s h3]; exact h5⟩

end BLinkTree

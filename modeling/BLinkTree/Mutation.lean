import BLinkTree.Invariant

/-! # The five changes of a tree

Every implementation changes the tree by writing slots of a leaf, splitting a leaf,
inserting a separator into an inner node, splitting an inner node, or stacking a new
root on the old one. Each change keeps the search invariant and tells the other
operations nothing that they would have to take back.
-/

namespace BLinkTree

variable {ι : Type} {c : Capacity} {t t' : Tree} {g : Ghost ι} {n : Nat}

/-! ## What a write or a split does to the other operations -/

theorem IsWrite.evolves (hw : IsWrite t t' n) (i : ι) {owner : Nat → Owner ι}
    (ho : ∀ j, j ≠ i → ∀ k, g.owner k = .pending j → owner k = .pending j) :
    Evolves i t g t' { g with owner := owner } := by
  refine ⟨hw.count.ge, fun _ _ => rfl, fun _ _ => rfl, ?_, ?_, ho⟩
  · intro m _
    by_cases hm : m = n
    · rw [hm, hw.isLeaf]
    · rw [hw.frame m hm]
  · intro m _ _
    by_cases hm : m = n
    · rw [hm, hw.highKey]
    · rw [hw.frame m hm]

theorem IsSplit.evolves {s : Nat} (hs : IsSplit t t' n s) (i : ι) {owner : Nat → Owner ι}
    (hle : (t.node n).isLeaf = true → s ≤ (t.node n).highKey)
    (ho : ∀ j, j ≠ i → ∀ k, g.owner k = .pending j → owner k = .pending j) :
    Evolves i t g t' (g.split n t.count s owner) := by
  refine ⟨by rw [hs.count]; omega, ?_, ?_, ?_, ?_, ho⟩
  · exact fun m hm => Slots.store_of_ne _ _ hm.ne
  · exact fun m hm => Slots.store_of_ne _ _ hm.ne
  · intro m hm
    by_cases hmn : m = n
    · rw [hmn, hs.left_isLeaf]
    · rw [hs.frame m hmn hm.ne]
  · intro m hm hl
    by_cases hmn : m = n
    · subst hmn
      rw [hs.left_highKey]
      exact hle hl
    · rw [hs.frame m hmn hm.ne]

/-! ## Splits -/

/-- What half `m` of a split node says about its keys, which start at `low`: its children are
nodes of the old tree. -/
structure HalfInv (c : Capacity) (t : Tree) (g : Ghost ι) (t' : Tree) (owner : Nat → Owner ι)
    (m low level : Nat) : Prop where
  wellFormed : (t'.node m).WellFormed c
  leaf_range : (t'.node m).isLeaf = true →
    low < (t'.node m).highKey ∧
      ∀ e ∈ (t'.node m).entries, low ≤ e.1 ∧ e.1 < (t'.node m).highKey
  leaf_free : (t'.node m).isLeaf = true →
    ∀ k, low < k → k < (t'.node m).highKey → owner k = .free
  first : (t'.node m).isLeaf = false →
    ∃ y, (t'.node m).first = some y ∧ y < t.count ∧ g.level y < level ∧ g.low y = low
  sep : ∀ e ∈ (t'.node m).seps, e.1 < maxKey ∧ owner e.1 = .stored m ∧
    ∃ y, e.2 = some y ∧ y < t.count ∧ g.level y < level ∧ g.low y = e.1

section Split

variable {s : Nat} {owner : Nat → Owner ι}

theorem Ghost.split_low {r m : Nat} (hm : m < r) : (g.split n r s owner).low m = g.low m :=
  Slots.store_of_ne _ _ hm.ne

theorem Ghost.split_low_self {r : Nat} : (g.split n r s owner).low r = s :=
  Slots.store_self _ _ _

theorem Ghost.split_level {r m : Nat} (hm : m < r) :
    (g.split n r s owner).level m = g.level m :=
  Slots.store_of_ne _ _ hm.ne

theorem Ghost.split_level_self {r : Nat} : (g.split n r s owner).level r = g.level n :=
  Slots.store_self _ _ _

/-- A half satisfies the local invariant, given its links. -/
theorem HalfInv.node {m low level : Nat} (h : HalfInv c t g t' owner m low level)
    (hs : IsSplit t t' n s) (hroot : t.root < t.count)
    (hlow : (g.split n t.count s owner).low m = low)
    (hlevel : (g.split n t.count s owner).level m = level)
    (hleaf : (t'.node m).isLeaf = true ↔ level = 0) (hle : level ≤ g.level t.root)
    (hnone : (t'.node m).rightSibling = none → (t'.node m).highKey = maxKey)
    (hsome : ∀ r, (t'.node m).rightSibling = some r →
      (t'.node m).highKey < maxKey ∧ r < t'.count ∧
        (g.split n t.count s owner).level r = level ∧
        (g.split n t.count s owner).low r = (t'.node m).highKey) :
    NodeInv c t' (g.split n t.count s owner) m := by
  refine ⟨h.wellFormed, ?_, ?_, hnone, ?_, ?_, ?_, ?_, ?_⟩
  · rw [hlevel]
    exact hleaf
  · rw [hlevel, hs.root, Ghost.split_level hroot]
    exact hle
  · rw [hlevel]
    exact hsome
  · rw [hlow]
    exact h.leaf_range
  · rw [hlow]
    exact h.leaf_free
  · rw [hlow, hlevel, hs.count]
    intro hl
    obtain ⟨y, h1, h2, h3, h4⟩ := h.first hl
    rw [← Ghost.split_level h2] at h3
    rw [← Ghost.split_low h2] at h4
    exact ⟨y, h1, by omega, h3, h4⟩
  · rw [hlevel, hs.count]
    intro e he
    obtain ⟨h0, howner, y, h1, h2, h3, h4⟩ := h.sep e he
    rw [← Ghost.split_level h2] at h3
    rw [← Ghost.split_low h2] at h4
    exact ⟨h0, howner, y, h1, by omega, h3, h4⟩

/-- A split whose halves keep their keys keeps the invariant, as long as the keys of the
other nodes keep their places. -/
theorem Inv.split (h : Inv c t g) (hn : n < t.count) (hs : IsSplit t t' n s) (hmax : s < maxKey)
    (hleft : HalfInv c t g t' owner n (g.low n) (g.level n))
    (hright : HalfInv c t g t' owner t.count s (g.level n))
    (hstored : ∀ m, m ≠ n → ∀ k, g.owner k = .stored m → owner k = .stored m)
    (hfree : ∀ m < t.count, m ≠ n → (t.node m).isLeaf = true → ∀ k, g.low m < k →
      k < (t.node m).highKey → g.owner k = .free → owner k = .free) :
    Inv c t' (g.split n t.count s owner) := by
  have hi := h.node n hn
  have hroot := h.root_lt
  refine ⟨?_, h.chain.of_split hn hs _, ?_, ?_, ?_⟩
  · intro m hm
    rw [hs.count] at hm
    by_cases hmc : m = t.count
    · subst hmc
      refine hright.node hs hroot Ghost.split_low_self Ghost.split_level_self ?_ hi.level_le ?_ ?_
      · rw [hs.new_isLeaf]
        exact hi.leaf_iff
      · rw [hs.new_right, hs.new_highKey]
        exact hi.right_none
      · rw [hs.new_right, hs.new_highKey, hs.count]
        intro r hr
        obtain ⟨h1, h2, h3, h4⟩ := hi.right_some r hr
        exact ⟨h1, by omega, (Ghost.split_level h2).trans h3, (Ghost.split_low h2).trans h4⟩
    · have hm' : m < t.count := by omega
      by_cases hmn : m = n
      · subst hmn
        refine hleft.node hs hroot (Ghost.split_low hn) (Ghost.split_level hn) ?_ hi.level_le
          ?_ ?_
        · rw [hs.left_isLeaf]
          exact hi.leaf_iff
        · rw [hs.left_right]
          exact fun hf => absurd hf (by simp)
        · rw [hs.left_right, hs.left_highKey, hs.count]
          rintro r ⟨⟩
          exact ⟨hmax, by omega, Ghost.split_level_self, Ghost.split_low_self⟩
      · exact (h.node m hm').frame hm' (hs.frame m hmn hmc) (by rw [hs.count]; omega)
          (fun _ => Ghost.split_low) (fun _ => Ghost.split_level)
          (by rw [hs.root, Ghost.split_level hroot]) (hstored m hmn) (hfree m hm' hmn)
  · rw [hs.root, hs.count]
    omega
  · rw [hs.root, Ghost.split_low hroot]
    exact h.low_root
  · have := h.top_lt
    rw [hs.root, Ghost.split_level hroot, hs.count]
    omega

end Split

/-! ## Leaves -/

theorem NodeInv.no_seps {m : Nat} (hl : (t.node m).isLeaf = true) : (t.node m).seps = [] := by
  simp [Node.seps, hl]

/-- Writing slots of a leaf. -/
theorem Inv.writeLeaf (h : Inv c t g) (hn : n < t.count) (hw : IsWrite t t' n)
    (hl : (t.node n).isLeaf = true) (hwf : (t'.node n).WellFormed c)
    (hr : ∀ e ∈ (t'.node n).entries, g.low n ≤ e.1 ∧ e.1 < (t.node n).highKey) :
    Inv c t' g := by
  have hi := h.node n hn
  have hl' : (t'.node n).isLeaf = true := hw.isLeaf.trans hl
  refine ⟨?_, h.chain.of_write hw rfl rfl rfl, ?_, ?_, ?_⟩
  · intro m hm
    rw [hw.count] at hm
    by_cases hmn : m = n
    · subst hmn
      refine ⟨hwf, ?_, ?_, ?_, ?_, ?_, ?_, ?_, ?_⟩
      · rw [hw.isLeaf]
        exact hi.leaf_iff
      · rw [hw.root]
        exact hi.level_le
      · rw [hw.right, hw.highKey]
        exact hi.right_none
      · rw [hw.right, hw.highKey, hw.count]
        exact hi.right_some
      · rw [hw.highKey]
        exact fun _ => ⟨(hi.leaf_range hl).1, hr⟩
      · rw [hw.isLeaf, hw.highKey]
        exact hi.leaf_free
      · intro hf
        rw [hl'] at hf
        exact absurd hf (by decide)
      · rw [NodeInv.no_seps hl']
        exact fun e he => absurd he (by simp)
    · exact (h.node m hm).frame hm (hw.frame m hmn) hw.count.ge (fun _ _ => rfl)
        (fun _ _ => rfl) (by rw [hw.root]) (fun _ hk => hk) fun _ _ _ _ hk => hk
  · rw [hw.root, hw.count]
    exact h.root_lt
  · rw [hw.root]
    exact h.low_root
  · rw [hw.root, hw.count]
    exact h.top_lt

/-- The proof state after operation `i` split leaf `n` at `s`. -/
def Ghost.leafSplit (g : Ghost ι) (i : ι) (n r s : Nat) : Ghost ι :=
  g.split n r s (Slots.store g.owner s (.pending i))

/-- Splitting a leaf strictly inside its range. -/
theorem Inv.splitLeaf (h : Inv c t g) (hn : n < t.count) {s : Nat} (hs : IsSplit t t' n s)
    (hl : (t.node n).isLeaf = true) (hlow : g.low n < s) (hhigh : s < (t.node n).highKey)
    (hwf : (t'.node n).WellFormed c) (hwf' : (t'.node t.count).WellFormed c)
    (hr : ∀ e ∈ (t'.node n).entries, g.low n ≤ e.1 ∧ e.1 < s)
    (hr' : ∀ e ∈ (t'.node t.count).entries, s ≤ e.1 ∧ e.1 < (t.node n).highKey)
    (i : ι) :
    Inv c t' (g.leafSplit i n t.count s) ∧
      Evolves i t g t' (g.leafSplit i n t.count s) ∧
      Pending t' (g.leafSplit i n t.count s) i s t.count := by
  have hi := h.node n hn
  have hl1 : (t'.node n).isLeaf = true := hs.left_isLeaf.trans hl
  have hl2 : (t'.node t.count).isLeaf = true := hs.new_isLeaf.trans hl
  have hmax : s < maxKey := lt_of_lt_of_le hhigh hi.highKey_le
  have hfree : g.owner s = .free := hi.leaf_free hl s hlow hhigh
  have howner : ∀ k, g.owner k ≠ .free → Slots.store g.owner s (.pending i) k = g.owner k := by
    intro k hk
    exact Slots.store_of_ne _ _ fun he => hk (he ▸ hfree)
  have howner' : ∀ k, k ≠ s → Slots.store g.owner s (.pending i) k = g.owner k :=
    fun k hk => Slots.store_of_ne _ _ hk
  refine ⟨h.split hn hs hmax ?_ ?_ ?_ ?_, hs.evolves i (fun _ => hhigh.le) ?_, ?_⟩
  · refine ⟨hwf, ?_, ?_, ?_, ?_⟩
    · rw [hs.left_highKey]
      exact fun _ => ⟨hlow, hr⟩
    · rw [hs.left_highKey]
      intro _ k h1 h2
      rw [howner' k (by omega)]
      exact hi.leaf_free hl k h1 (by omega)
    · exact fun hf => absurd (hl1.symm.trans hf) (by decide)
    · rw [NodeInv.no_seps hl1]
      exact fun e he => absurd he (by simp)
  · refine ⟨hwf', ?_, ?_, ?_, ?_⟩
    · rw [hs.new_highKey]
      exact fun _ => ⟨hhigh, hr'⟩
    · rw [hs.new_highKey]
      intro _ k h1 h2
      rw [howner' k (by omega)]
      exact hi.leaf_free hl k (by omega) h2
    · exact fun hf => absurd (hl2.symm.trans hf) (by decide)
    · rw [NodeInv.no_seps hl2]
      exact fun e he => absurd he (by simp)
  · intro m _ k hk
    exact (howner k (by rw [hk]; simp)).trans hk
  · intro m hm hmn hml k h1 h2 hk
    -- `s` lies strictly inside leaf `n`, and leaves do not overlap
    rw [howner' k, hk]
    rintro rfl
    exact hmn (h.leaf_unique hm hn hml hl h1.le h2 hlow.le hhigh)
  · intro j _ k hk
    exact (howner k (by rw [hk]; simp)).trans hk
  · exact ⟨hmax, by rw [hs.count]; omega, Ghost.split_low_self, Slots.store_self _ _ _⟩

/-! ## Inner nodes -/

/-- Inserting a pending separator into an inner node. -/
theorem Inv.writeInner (h : Inv c t g) (hn : n < t.count) (hw : IsWrite t t' n)
    (hl : (t.node n).isLeaf = false) (hwf : (t'.node n).WellFormed c) {i : ι} {s x : Nat}
    (hp : Pending t g i s x) (hlv : g.level x < g.level n)
    (hfirst : (t'.node n).first = (t.node n).first)
    (hseps : (t'.node n).seps = OrderedMap.insertNew s (some x) (t.node n).seps) :
    Inv c t' { g with owner := Slots.store g.owner s (.stored n) } ∧
      Evolves i t g t' { g with owner := Slots.store g.owner s (.stored n) } := by
  have hi := h.node n hn
  have hl' : (t'.node n).isLeaf = false := hw.isLeaf.trans hl
  have howner : ∀ k, g.owner k ≠ .pending i →
      Slots.store g.owner s (.stored n) k = g.owner k := by
    intro k hk
    exact Slots.store_of_ne _ _ fun he => hk (he ▸ hp.owner_eq)
  refine ⟨⟨?_, h.chain.of_write hw rfl rfl rfl, ?_, ?_, ?_⟩, hw.evolves i ?_⟩
  · intro m hm
    rw [hw.count] at hm
    by_cases hmn : m = n
    · subst hmn
      refine ⟨hwf, ?_, ?_, ?_, ?_, ?_, ?_, ?_, ?_⟩
      · rw [hw.isLeaf]
        exact hi.leaf_iff
      · rw [hw.root]
        exact hi.level_le
      · rw [hw.right, hw.highKey]
        exact hi.right_none
      · rw [hw.right, hw.highKey, hw.count]
        exact hi.right_some
      · intro hf
        rw [hl'] at hf
        exact absurd hf (by decide)
      · intro hf
        rw [hl'] at hf
        exact absurd hf (by decide)
      · rw [hfirst, hw.count]
        exact fun _ => hi.first hl
      · rw [hseps, hw.count]
        intro e he
        rcases OrderedMap.mem_insertNew.mp he with rfl | he
        · exact ⟨hp.key_lt, Slots.store_self _ _ _, x, rfl, hp.lt_count, hlv, hp.low_eq⟩
        · obtain ⟨h0, h1, h2⟩ := hi.sep e he
          exact ⟨h0, (howner _ (by rw [h1]; simp)).trans h1, h2⟩
    · refine (h.node m hm).frame hm (hw.frame m hmn) hw.count.ge (fun _ _ => rfl)
        (fun _ _ => rfl) (by rw [hw.root]) ?_ ?_
      · intro k hk
        exact (howner k (by rw [hk]; simp)).trans hk
      · intro _ k _ _ hk
        exact (howner k (by rw [hk]; simp)).trans hk
  · rw [hw.root, hw.count]
    exact h.root_lt
  · rw [hw.root]
    exact h.low_root
  · rw [hw.root, hw.count]
    exact h.top_lt
  · intro j hj k hk
    exact (howner k (by rw [hk]; simpa using hj)).trans hk

/-- The proof state after operation `i` split inner node `n`: `up` moves up, `right`
are the keys of the new node `r`, and `s` is the key that was inserted. -/
def Ghost.innerSplit (g : Ghost ι) (i : ι) (n r s up : Nat) (right : List Nat) : Ghost ι :=
  g.split n r up fun k =>
    if k = up then .pending i
    else if k ∈ right then .stored r
    else if k = s then .stored n
    else g.owner k

/-- Every binding of the list that is cut is the pending one or an old one of the node. -/
theorem Inv.binding_of_cut (h : Inv c t g) (hn : n < t.count) {i : ι} {s x : Nat}
    (hp : Pending t g i s x) (hlv : g.level x < g.level n) {l : List (Nat × Option Nat)}
    (hcut : OrderedMap.insertNew s (some x) (t.node n).seps = l) :
    ∀ e ∈ l, e.1 < maxKey ∧ (g.owner e.1 = .stored n ∨ e.1 = s) ∧
      ∃ y, e.2 = some y ∧ y < t.count ∧ g.level y < g.level n ∧ g.low y = e.1 := by
  intro e he
  rw [← hcut] at he
  rcases OrderedMap.mem_insertNew.mp he with rfl | he
  · exact ⟨hp.key_lt, Or.inr rfl, x, rfl, hp.lt_count, hlv, hp.low_eq⟩
  · obtain ⟨h0, h1, h2⟩ := (h.node n hn).sep e he
    exact ⟨h0, Or.inl h1, h2⟩

/-- A pending key is in no node, so the list that is cut is sorted. -/
theorem Inv.sorted_cut (h : Inv c t g) (hn : n < t.count) (hl : (t.node n).isLeaf = false)
    {i : ι} {s x : Nat} (hp : Pending t g i s x) {l : List (Nat × Option Nat)}
    (hcut : OrderedMap.insertNew s (some x) (t.node n).seps = l) : OrderedMap.Sorted l := by
  have hi := h.node n hn
  have hkeys : (t.node n).seps.map Prod.fst = (t.node n).liveKeys :=
    (Node.liveKeys_of_inner hl).symm
  rw [← hcut]
  refine OrderedMap.Sorted.insertNew ?_ ?_
  · rw [OrderedMap.Sorted, ← List.pairwise_map (f := Prod.fst), hkeys]
    exact hi.wellFormed.sorted
  · intro hmem
    obtain ⟨e, he, hes⟩ := List.mem_map.mp hmem
    have := (hi.sep e he).2.1
    rw [hes, hp.owner_eq] at this
    exact absurd this (by simp)

/-- Splitting an inner node while inserting a pending separator. -/
theorem Inv.splitInner (h : Inv c t g) (hn : n < t.count) {up : Nat}
    (hs : IsSplit t t' n up) (hl : (t.node n).isLeaf = false)
    (hwf : (t'.node n).WellFormed c) (hwf' : (t'.node t.count).WellFormed c) {i : ι} {s x : Nat}
    (hp : Pending t g i s x) (hlv : g.level x < g.level n)
    (hfirst : (t'.node n).first = (t.node n).first)
    (hcut : OrderedMap.insertNew s (some x) (t.node n).seps =
      (t'.node n).seps ++ (up, (t'.node t.count).first) :: (t'.node t.count).seps)
    {g' : Ghost ι} (hg' : g' = g.innerSplit i n t.count s up
      ((t'.node t.count).seps.map Prod.fst)) :
    Inv c t' g' ∧ Evolves i t g t' g' ∧ Pending t' g' i up t.count := by
  subst hg'
  have hi := h.node n hn
  have hl1 : (t'.node n).isLeaf = false := hs.left_isLeaf.trans hl
  have hl2 : (t'.node t.count).isLeaf = false := hs.new_isLeaf.trans hl
  have hold := h.binding_of_cut hn hp hlv hcut
  have hup := hold (up, (t'.node t.count).first) (by simp)
  obtain ⟨_, hs2, hs3⟩ := OrderedMap.sorted_append.mp (h.sorted_cut hn hl hp hcut)
  obtain ⟨hs4, _⟩ := OrderedMap.sorted_cons.mp hs2
  -- keys that are not in the node keep their place
  have howner : ∀ k, g.owner k ≠ .stored n → g.owner k ≠ .pending i →
      (g.innerSplit i n t.count s up ((t'.node t.count).seps.map Prod.fst)).owner k =
        g.owner k := by
    intro k hk hki
    have hks : k ≠ s := fun he => hki (he ▸ hp.owner_eq)
    have h1 : k ≠ up := by
      rintro rfl
      exact hup.2.1.elim hk hks
    have h2 : k ∉ (t'.node t.count).seps.map Prod.fst := by
      intro hmem
      obtain ⟨e, he, rfl⟩ := List.mem_map.mp hmem
      exact (hold e (by simp [he])).2.1.elim hk hks
    simp [Ghost.innerSplit, Ghost.split, h1, h2, hks]
  refine ⟨h.split hn hs hup.1 ?_ ?_ ?_ ?_, ?_, ?_⟩
  · refine ⟨hwf, ?_, ?_, ?_, ?_⟩
    · exact fun hf => absurd (hl1.symm.trans hf) (by decide)
    · exact fun hf => absurd (hl1.symm.trans hf) (by decide)
    · rw [hfirst]
      exact fun _ => hi.first hl
    · intro e he
      obtain ⟨h0, hst, hy⟩ := hold e (by simp [he])
      refine ⟨h0, ?_, hy⟩
      have hne : e.1 ≠ up := (hs3 e he (up, (t'.node t.count).first) (by simp)).ne
      have hnm : e.1 ∉ (t'.node t.count).seps.map Prod.fst := by
        intro hmem
        obtain ⟨e', he', heq⟩ := List.mem_map.mp hmem
        have := hs3 e he e' (by simp [he'])
        omega
      rw [if_neg hne, if_neg hnm]
      split
      · rfl
      · exact hst.resolve_right ‹_›
  · refine ⟨hwf', ?_, ?_, fun _ => hup.2.2, ?_⟩
    · exact fun hf => absurd (hl2.symm.trans hf) (by decide)
    · exact fun hf => absurd (hl2.symm.trans hf) (by decide)
    · intro e he
      obtain ⟨h0, _, hy⟩ := hold e (by simp [he])
      have hmem : e.1 ∈ (t'.node t.count).seps.map Prod.fst := List.mem_map.mpr ⟨e, he, rfl⟩
      exact ⟨h0, by rw [if_neg (hs4 e he).ne', if_pos hmem], hy⟩
  · intro m hmn k hk
    exact (howner k (by rw [hk]; simpa using hmn) (by rw [hk]; simp)).trans hk
  · intro m _ _ _ k _ _ hk
    exact (howner k (by rw [hk]; simp) (by rw [hk]; simp)).trans hk
  · refine hs.evolves i (fun hf => absurd (hl.symm.trans hf) (by decide)) ?_
    intro j hj k hk
    exact (howner k (by rw [hk]; simp) (by rw [hk]; simpa using hj)).trans hk
  · exact ⟨hup.1, by rw [hs.count]; omega, Ghost.split_low_self, if_pos rfl⟩

/-! ## The root -/

/-- Stacking a new root for a pending separator on the old root. -/
theorem Inv.newRoot (h : Inv c t g) {i : ι} {s x : Nat} (hp : Pending t g i s x)
    (hr : IsNewRoot t t' t.root x s) :
    Inv c t' (g.newRoot t.root t.count s) ∧
      Evolves i t g t' (g.newRoot t.root t.count s) := by
  have hlows : ∀ m < t.count, (g.newRoot t.root t.count s).low m = g.low m :=
    fun m hm => Slots.store_of_ne _ _ hm.ne
  have hlevels : ∀ m < t.count, (g.newRoot t.root t.count s).level m = g.level m :=
    fun m hm => Slots.store_of_ne _ _ hm.ne
  have hlowc : (g.newRoot t.root t.count s).low t.count = 0 := Slots.store_self _ _ _
  have hlevelc : (g.newRoot t.root t.count s).level t.count = g.level t.root + 1 :=
    Slots.store_self _ _ _
  have howner : ∀ k, g.owner k ≠ .pending i →
      (g.newRoot t.root t.count s).owner k = g.owner k := by
    intro k hk
    have hks : k ≠ s := fun he => hk (he ▸ hp.owner_eq)
    exact if_neg hks
  have hcap : 1 ≤ (t'.node t.count).capacity c := by
    have := c.two_le_maxKeys
    simp only [Node.capacity, hr.isLeaf]
    exact le_trans (by omega) this
  refine ⟨⟨?_, ?_, ?_, ?_, ?_⟩, ?_⟩
  · intro m hm
    rw [hr.count] at hm
    by_cases hmc : m = t.count
    · subst hmc
      refine ⟨⟨by rw [hr.size]; exact hcap, ?_⟩, ?_, ?_, ?_, ?_, ?_, ?_, ?_, ?_⟩
      · rw [Node.liveKeys_of_inner hr.isLeaf, hr.seps]
        simp
      · rw [hr.isLeaf, hlevelc]
        simp
      · rw [hr.root]
      · exact fun _ => hr.highKey
      · rw [hr.rightSibling]
        exact fun r hf => absurd hf (by simp)
      · rw [hr.isLeaf]
        exact fun hf => absurd hf (by decide)
      · rw [hr.isLeaf]
        exact fun hf => absurd hf (by decide)
      · intro _
        refine ⟨t.root, hr.first, ?_, ?_, ?_⟩
        · have := h.root_lt
          rw [hr.count]
          omega
        · rw [hlevels _ h.root_lt, hlevelc]
          omega
        · rw [hlows _ h.root_lt, h.low_root]
          omega
      · rw [hr.seps]
        intro e he
        obtain rfl := List.mem_singleton.mp he
        have hx := (h.node x hp.lt_count).level_le
        refine ⟨hp.key_lt, if_pos rfl, x, rfl, ?_, ?_, (hlows x hp.lt_count).trans hp.low_eq⟩
        · have := hp.lt_count
          rw [hr.count]
          omega
        · rw [hlevels x hp.lt_count, hlevelc]
          omega
    · have hm' : m < t.count := by omega
      refine (h.node m hm').frame hm' (hr.frame m hmc) (by rw [hr.count]; omega) hlows hlevels
        (by rw [hr.root, hlevelc]; omega) ?_ ?_
      · intro k hk
        rw [howner k (by rw [hk]; simp), hk]
      · intro _ k _ _ hk
        rw [howner k (by rw [hk]; simp), hk]
  · exact h.chain.of_newRoot (fun m hm => (h.node m hm).level_le) hr
  · rw [hr.root, hr.count]
    omega
  · rw [hr.root, hlowc]
  · have := h.top_lt
    rw [hr.root, hlevelc, hr.count]
    omega
  · refine ⟨by rw [hr.count]; omega, hlows, hlevels, ?_, ?_, ?_⟩
    · exact fun m hm => by rw [hr.frame m hm.ne]
    · exact fun m hm _ => by rw [hr.frame m hm.ne]
    · intro j hj k hk
      rw [howner k (by rw [hk]; simpa using hj), hk]

end BLinkTree

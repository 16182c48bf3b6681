import BLinkTree.Tiling

/-! # The structure of the tree that one thread builds

The tiled levels together with the height and the parent pointers. A pending
separator already has as its parent the node to which it belongs: a split hands the
parent of the old node on to the new one.
-/

namespace BLinkTree

variable {ι : Type} {c : Capacity} {t t' : Tree} {g g' : Ghost ι} {i : ι} {n l s x : Nat}
  {up : Option (Nat × Nat)}

/-- The invariant of the tree while one insert carries the pair `up`. -/
structure Strict (c : Capacity) (t : Tree) (g : Ghost ι) (up : Option (Nat × Nat)) : Prop where
  inv : Inv c t g
  tiled : Tiled t g up
  height : t.height = g.level t.root + 1
  parent_root : t.parent t.root = none
  parent_child : ∀ p < t.count, (t.node p).isLeaf = false → ∀ y, some y ∈ (t.node p).children →
    t.parent y = some p
  parent_up : ∀ x s, up = some (x, s) → ∀ p, Belongs t g p s x → t.parent x = some p

theorem strict_empty (c : Capacity) (memory : Nat → Memory) :
    Strict c (Tree.empty memory) (Ghost.initial ι) none where
  inv := inv_empty c memory
  tiled := tiled_empty memory
  height := rfl
  parent_root := rfl
  parent_child := fun p _ hl => absurd hl (by simp [Tree.empty, Node.create])
  parent_up := fun _ _ h => absurd h (by simp)

/-! ## Children -/

/-- The child that `child` returns is one of the children. -/
theorem NodeInv.child_mem {k y : Nat} (h : NodeInv c t g n) (hl : (t.node n).isLeaf = false)
    (hc : (t.node n).child k = some y) : some y ∈ (t.node n).children := by
  have hsize : (t.node n).size < 2 ^ 14 :=
    lt_of_le_of_lt h.wellFormed.size_le ((t.node n).capacity_lt c)
  have hmem := Node.child_mem_children hl hsize.le k
  rwa [hc] at hmem

/-- A child is a separator of the node, starts inside the node's range and is one level
below it. -/
theorem Tiled.children_spec (ht : Tiled t g up) (h : Inv c t g) (hn : n < t.count)
    (hl : (t.node n).isLeaf = false) {y : Nat} (hy : some y ∈ (t.node n).children) :
    y < t.count ∧ g.level y + 1 = g.level n ∧ g.low n ≤ g.low y ∧
      g.low y < (t.node n).highKey := by
  rw [Node.children_of_inner hl] at hy
  have hmem : ∃ k, (k, some y) ∈ t.slots g n := by
    rcases List.mem_cons.mp hy with heq | hy
    · exact ⟨g.low n, by rw [heq]; exact List.mem_cons_self ..⟩
    · rcases List.mem_map.mp hy with ⟨e, he, heq⟩
      exact ⟨e.1, by rw [← heq]; exact List.mem_cons_of_mem _ he⟩
  rcases hmem with ⟨k, hk⟩
  rcases ht.mem_slots h hn hl hk with ⟨y', heq, hyc, hlv⟩
  simp only [Prod.mk.injEq, Option.some.injEq] at heq
  rcases heq with ⟨rfl, rfl⟩
  have hr := ht.slots_range h hn hl hk
  exact ⟨hyc, hlv, hr.1, hr.2⟩

/-- A node is the child of one node only. -/
theorem Tiled.eq_of_child (ht : Tiled t g up) (h : Inv c t g) {p q y : Nat} (hp : p < t.count)
    (hq : q < t.count) (hpl : (t.node p).isLeaf = false) (hql : (t.node q).isLeaf = false)
    (hyp : some y ∈ (t.node p).children) (hyq : some y ∈ (t.node q).children) : p = q := by
  rcases ht.children_spec h hp hpl hyp with ⟨_, h2, h3, h4⟩
  rcases ht.children_spec h hq hql hyq with ⟨_, k2, k3, k4⟩
  refine (ht.ordered h (g.level p)).eq_of_mem ((h.chain.mem _ p).mpr ⟨hp, rfl⟩)
    ((h.chain.mem _ q).mpr ⟨hq, by omega⟩) h3 h4 k3 k4

/-- The node one level above a node that covers a key of that node holds it as a child. -/
theorem Tiled.mem_children (ht : Tiled t g up) (h : Inv c t g)
    (hup : ∀ x s, up = some (x, s) → g.level x ≠ g.level n) (hn : n < t.count)
    (hlow : g.low n < s) (hhigh : s < (t.node n).highKey) {p : Nat} (hb : Belongs t g p s n) :
    some n ∈ (t.node p).children := by
  have hp := hb.lt_count
  have hpl := hb.inner h
  have hlv := hb.level_eq
  have hptop := (h.node p hp).level_le
  have hmemn : n ∈ g.chain (g.level n) := (h.chain.mem _ n).mpr ⟨hn, rfl⟩
  -- some node on the level of `p` holds `n`
  have hstart : (g.low n, some n) ∈ g.starts (g.chain (g.level n)) :=
    List.mem_map.mpr ⟨n, hmemn, rfl⟩
  have hposted : g.posted up (g.level n) (t.above g (g.level n)) = t.above g (g.level n) := by
    cases up with
    | none => rfl
    | some u => exact if_neg (hup u.1 u.2 rfl)
  rw [ht _ (by omega), hposted, above_of_lt (by omega)] at hstart
  rcases List.mem_flatMap.mp hstart with ⟨p0, hp0, hslot⟩
  rcases (h.chain.mem _ p0).mp hp0 with ⟨hp0c, hp0l⟩
  have hp0i : (t.node p0).isLeaf = false := Belongs.inner (x := n) (s := g.low p0)
    ⟨hp0c, hp0l.symm, le_rfl, ht.low_lt_highKey h hp0c⟩ h
  have hr0 := ht.slots_range h hp0c hp0i hslot
  have hmemp : p ∈ g.chain (g.level n + 1) := (h.chain.mem _ p).mpr ⟨hp, hlv.symm⟩
  -- `p` starts no later than `n`, for otherwise its first child starts inside `n`
  have hle : g.low p ≤ g.low n := by
    by_contra hlt
    rcases ht.mem_slots h hp hpl (List.mem_cons_self ..) with ⟨y, heq, hyc, hyl⟩
    have hly : g.low p = g.low y := (Prod.mk.inj heq).1
    have hlow' := hb.low_le
    have hyn := (ht.ordered h (g.level n)).eq_of_mem hmemn
      ((h.chain.mem _ y).mpr ⟨hyc, by omega⟩) (k := g.low y) (by omega) (by omega) le_rfl
      (ht.low_lt_highKey h hyc)
    rw [hyn, hly] at hlt
    exact hlt le_rfl
  have hph := hb.lt_highKey
  have heq := (ht.ordered h _).eq_of_mem hp0 hmemp hr0.1 hr0.2 hle (by show g.low n < _; omega)
  subst heq
  rw [Node.children_of_inner hp0i]
  rcases List.mem_cons.mp hslot with heq | hmem
  · rw [(Prod.mk.inj heq).2]
    exact List.mem_cons_self ..
  · exact List.mem_cons_of_mem _ (List.mem_map.mpr ⟨_, hmem, rfl⟩)

/-! ## Changes -/

theorem Strict.writeLeaf (h : Strict c t g up) (hinv : Inv c t' g) (hn : n < t.count)
    (hw : IsWrite t t' n) (hl : (t.node n).isLeaf = true) (hheight : t'.height = t.height)
    (hpar : t'.parent = t.parent) : Strict c t' g up := by
  have hnode : ∀ p < t'.count, (t'.node p).isLeaf = false → t'.node p = t.node p := by
    intro p _ hpl
    refine hw.frame p ?_
    rintro rfl
    rw [hw.isLeaf, hl] at hpl
    exact absurd hpl (by decide)
  refine ⟨hinv, h.tiled.writeLeaf h.inv hn hw hl, ?_, ?_, ?_, ?_⟩
  · rw [hheight, hw.root]
    exact h.height
  · rw [hpar, hw.root]
    exact h.parent_root
  · intro p hp hpl y hy
    have heq := hnode p hp hpl
    rw [heq] at hpl hy
    rw [hw.count] at hp
    rw [hpar]
    exact h.parent_child p hp hpl y hy
  · intro x s hup p hb
    have hpl := hb.inner hinv
    have hp := hb.lt_count
    rw [hw.count] at hp
    rw [hpar]
    refine h.parent_up x s hup p ⟨hp, hb.level_eq, hb.low_le, ?_⟩
    rw [← hnode p hb.lt_count hpl]
    exact hb.lt_highKey

theorem Strict.splitLeaf (h : Strict c t g none) (hn : n < t.count)
    (hl : (t.node n).isLeaf = true) (hd : LeafDivided c i t g t' n s)
    (hheight : t'.height = t.height)
    (hpar : t'.parent = Slots.store t.parent t.count (t.parent n)) :
    Strict c t' (g.leafSplit i n t.count s) (some (t.count, s)) := by
  have hs := hd.split
  have he := hd.evolves
  have hnode : ∀ p < t'.count, (t'.node p).isLeaf = false →
      p < t.count ∧ t'.node p = t.node p := by
    intro p hp hpl
    have hpn : p ≠ n := by
      rintro rfl
      rw [hs.left_isLeaf, hl] at hpl
      exact absurd hpl (by decide)
    have hpc : p ≠ t.count := by
      rintro rfl
      rw [hs.new_isLeaf, hl] at hpl
      exact absurd hpl (by decide)
    rw [hs.count] at hp
    exact ⟨by omega, hs.frame p hpn hpc⟩
  refine ⟨hd.inv, h.tiled.splitLeaf h.inv hn hl hd, ?_, ?_, ?_, ?_⟩
  · rw [hheight, hs.root, he.level_eq _ h.inv.root_lt]
    exact h.height
  · rw [hpar, hs.root, Slots.store_of_ne _ _ h.inv.root_lt.ne]
    exact h.parent_root
  · intro p hp hpl y hy
    rcases hnode p hp hpl with ⟨hpc, heq⟩
    rw [heq] at hpl hy
    have hyc := (h.tiled.children_spec h.inv hpc hpl hy).1
    rw [hpar, Slots.store_of_ne _ _ hyc.ne]
    exact h.parent_child p hpc hpl y hy
  · rintro x s' hup p hb
    obtain ⟨rfl, rfl⟩ : t.count = x ∧ s = s' := by simpa using hup
    rcases hnode p hb.lt_count (hb.inner hd.inv) with ⟨hpc, heq⟩
    have hlvc : (g.leafSplit i n t.count s).level t.count = g.level n := Slots.store_self _ _ _
    have hbn : Belongs t g p s n := by
      refine ⟨hpc, ?_, ?_, ?_⟩
      · rw [← hlvc, hb.level_eq, he.level_eq p hpc]
      · rw [← he.low_eq p hpc]
        exact hb.low_le
      · rw [← heq]
        exact hb.lt_highKey
    have hmem := h.tiled.mem_children h.inv (fun _ _ hf => absurd hf (by simp)) hn hd.low_lt
      hd.lt_highKey hbn
    rw [hpar, Slots.store_self]
    exact h.parent_child p hpc (hbn.inner h.inv) n hmem

/-- The pending separator becomes a child. -/
theorem Inserted.children {y : Nat} (hins : Inserted t t' n s x) (hl : (t.node n).isLeaf = false)
    (hy : some y ∈ (t'.node n).children) : y = x ∨ some y ∈ (t.node n).children := by
  rw [Node.children_of_inner (hins.write.isLeaf.trans hl), hins.first, hins.seps] at hy
  rw [Node.children_of_inner hl]
  rcases List.mem_cons.mp hy with heq | hy
  · exact Or.inr (by rw [heq]; exact List.mem_cons_self ..)
  · rcases List.mem_map.mp hy with ⟨e, he, heq⟩
    rcases OrderedMap.mem_insertNew.mp he with rfl | he
    · exact Or.inl (Option.some.inj heq).symm
    · exact Or.inr (List.mem_cons_of_mem _ (List.mem_map.mpr ⟨e, he, heq⟩))

theorem Strict.insert (h : Strict c t g (some (x, s))) (hx : x < t.count)
    (hb : Belongs t g n s x) (hins : Inserted t t' n s x) {owner : Nat → Owner ι}
    (hinv : Inv c t' { g with owner := owner }) : Strict c t' { g with owner := owner } none := by
  have hw := hins.write
  have hl := hb.inner h.inv
  refine ⟨hinv, h.tiled.insert h.inv hx hb hins owner, ?_, ?_, ?_, fun _ _ hf => absurd hf (by simp)⟩
  · rw [hins.height, hw.root]
    exact h.height
  · rw [hins.parent, hw.root]
    exact h.parent_root
  · intro p hp hpl y hy
    rw [hw.count] at hp
    rw [hins.parent]
    by_cases hpn : p = n
    · subst hpn
      rcases hins.children hl hy with rfl | hy
      · exact h.parent_up y s rfl p hb
      · exact h.parent_child p hp hl y hy
    · rw [hw.frame p hpn] at hpl hy
      exact h.parent_child p hp hpl y hy

/-- The children of the two halves are the old ones and the pending separator. -/
theorem InnerDivided.children {k y : Nat} (hd : InnerDivided c t t' n s x k)
    (hl : (t.node n).isLeaf = false) :
    some y ∈ (t'.node n).children ∨ some y ∈ (t'.node t.count).children ↔
      y = x ∨ some y ∈ (t.node n).children := by
  rw [Node.children_of_inner (hd.split.left_isLeaf.trans hl),
    Node.children_of_inner (hd.split.new_isLeaf.trans hl), Node.children_of_inner hl, hd.first]
  have hmem : (∃ e ∈ OrderedMap.insertNew s (some x) (t.node n).seps, e.2 = some y) ↔
      y = x ∨ ∃ e ∈ (t.node n).seps, e.2 = some y := by
    simp only [OrderedMap.mem_insertNew]
    constructor
    · rintro ⟨e, rfl | he, hey⟩
      · exact Or.inl (Option.some.inj hey).symm
      · exact Or.inr ⟨e, he, hey⟩
    · rintro (rfl | ⟨e, he, hey⟩)
      · exact ⟨_, Or.inl rfl, rfl⟩
      · exact ⟨e, Or.inr he, hey⟩
  rw [hd.cut] at hmem
  simp only [List.mem_append, List.mem_cons, List.mem_map] at hmem ⊢
  constructor
  · rintro ((hy | ⟨e, he, hey⟩) | (hy | ⟨e, he, hey⟩))
    · exact Or.inr (Or.inl hy)
    · rcases hmem.mp ⟨e, Or.inl he, hey⟩ with hy | hy
      · exact Or.inl hy
      · exact Or.inr (Or.inr hy)
    · rcases hmem.mp ⟨_, Or.inr (Or.inl rfl), hy.symm⟩ with hy | hy
      · exact Or.inl hy
      · exact Or.inr (Or.inr hy)
    · rcases hmem.mp ⟨e, Or.inr (Or.inr he), hey⟩ with hy | hy
      · exact Or.inl hy
      · exact Or.inr (Or.inr hy)
  · intro hy
    have hcases : (some y = (t.node n).first) ∨ (y = x ∨ ∃ e ∈ (t.node n).seps, e.2 = some y) := by
      tauto
    rcases hcases with hy | hy
    · exact Or.inl (Or.inl hy)
    · rcases hmem.mpr hy with ⟨e, he | rfl | he, hey⟩
      · exact Or.inl (Or.inr ⟨e, he, hey⟩)
      · exact Or.inr (Or.inl hey.symm)
      · exact Or.inr (Or.inr ⟨e, he, hey⟩)

/-- The separator has the node as its parent already. -/
theorem innerParent_of_parent (hx : t.parent x = some n) {m : Nat} (hm : m < t.count) :
    t.innerParent c n s x m = t.parent m := by
  unfold Tree.innerParent
  split
  · by_cases hmx : m = x
    · rw [hmx, Slots.store_self, hx]
    · rw [Slots.store_of_ne _ _ hmx, Slots.store_of_ne _ _ hm.ne]
  · rw [Slots.store_of_ne _ _ hm.ne]

theorem Strict.split {k : Nat} (h : Strict c t g (some (x, s))) (hx : x < t.count)
    (hb : Belongs t g n s x) (hd : InnerDivided c t t' n s x k) {owner : Nat → Owner ι}
    (hinv : Inv c t' (g.split n t.count k owner))
    (he : Evolves i t g t' (g.split n t.count k owner)) :
    Strict c t' (g.split n t.count k owner) (some (t.count, k)) := by
  have hs := hd.split
  have hn := hb.lt_count
  have hl := hb.inner h.inv
  have hlv := hb.level_eq
  have hpx : t.parent x = some n := h.parent_up x s rfl n hb
  have ht' := h.tiled.split h.inv hx hb hd owner
  have hnew : (t'.node t.count).isLeaf = false := hs.new_isLeaf.trans hl
  have hleft : (t'.node n).isLeaf = false := hs.left_isLeaf.trans hl
  have hcount : t.count < t'.count := by rw [hs.count]; omega
  have hlvc : (g.split n t.count k owner).level t.count = g.level n := Slots.store_self _ _ _
  -- a node that is not below `n` keeps its parent
  have hkeep : ∀ m < t.count, g.level n ≤ g.level m → t'.parent m = t.parent m := by
    intro m hm hlvm
    have hm1 : some m ∉ (t'.node t.count).children := by
      intro hy
      have := (ht'.children_spec hinv hcount hnew hy).2.1
      rw [hlvc, he.level_eq m hm] at this
      omega
    rw [hd.parent m, if_neg hm1, innerParent_of_parent hpx hm]
  refine ⟨hinv, ht', ?_, ?_, ?_, ?_⟩
  · rw [hd.height, hs.root, he.level_eq _ h.inv.root_lt]
    exact h.height
  · rw [hs.root, hkeep _ h.inv.root_lt (h.inv.node n hn).level_le]
    exact h.parent_root
  · intro p hp hpl y hy
    by_cases hpc : p = t.count
    · subst hpc
      rw [hd.parent y, if_pos hy]
    · have hp' : p < t.count := by
        rw [hs.count] at hp
        omega
      have hy1 : some y ∉ (t'.node t.count).children :=
        fun hyc => hpc (ht'.eq_of_child hinv hp hcount hpl hnew hy hyc)
      by_cases hpn : p = n
      · subst hpn
        rcases (hd.children hl).mp (Or.inl hy) with rfl | hyo
        · rw [hd.parent y, if_neg hy1, innerParent_of_parent hpx hx, hpx]
        · have hyc := (h.tiled.children_spec h.inv hn hl hyo).1
          rw [hd.parent y, if_neg hy1, innerParent_of_parent hpx hyc]
          exact h.parent_child p hn hl y hyo
      · have heq := hs.frame p hpn hpc
        rw [heq] at hpl hy
        have hyc := (h.tiled.children_spec h.inv hp' hpl hy).1
        rw [hd.parent y, if_neg hy1, innerParent_of_parent hpx hyc]
        exact h.parent_child p hp' hpl y hy
  · rintro x' s' hup p hbp
    obtain ⟨rfl, rfl⟩ : t.count = x' ∧ k = s' := by simpa using hup
    have hplv := hbp.level_eq
    rw [hlvc] at hplv
    have hpc : p < t.count := by
      have hp := hbp.lt_count
      rw [hs.count] at hp
      refine lt_of_le_of_ne (by omega) ?_
      rintro rfl
      omega
    rw [he.level_eq p hpc] at hplv
    have heq : t'.node p = t.node p := by
      refine hs.frame p ?_ hpc.ne
      rintro rfl
      omega
    rcases h.tiled.up_range h.inv hx hb hd with ⟨hk1, hk2⟩
    have hbn : Belongs t g p k n := by
      refine ⟨hpc, hplv, ?_, ?_⟩
      · rw [← he.low_eq p hpc]
        exact hbp.low_le
      · rw [← heq]
        exact hbp.lt_highKey
    have hmem := h.tiled.mem_children h.inv (n := n) (by
      intro x' s' hu
      obtain ⟨rfl, rfl⟩ : x = x' ∧ s = s' := by simpa using hu
      omega) hn hk1 hk2 hbn
    have hpar : t'.parent t.count = t.parent n := by
      have hm1 : some t.count ∉ (t'.node t.count).children := by
        intro hy
        have := (ht'.children_spec hinv hcount hnew hy).2.1
        omega
      rw [hd.parent, if_neg hm1, Tree.innerParent]
      split
      · rw [Slots.store_of_ne _ _ hx.ne', Slots.store_self]
      · rw [Slots.store_self]
    rw [hpar]
    exact h.parent_child p hpc (hbn.inner h.inv) n hmem

theorem Strict.newRoot (h : Strict c t g (some (x, s))) (hx : x < t.count)
    (hlv : g.level x = g.level t.root)
    (hinv : Inv c (t.createNewRoot t.root x s) (g.newRoot t.root t.count s)) :
    Strict c (t.createNewRoot t.root x s) (g.newRoot t.root t.count s) none := by
  have hr := createNewRoot_isNewRoot t t.root x s
  have hroot := h.inv.root_lt
  have hlevelc : (g.newRoot t.root t.count s).level t.count = g.level t.root + 1 :=
    Slots.store_self _ _ _
  refine ⟨hinv, h.tiled.newRoot h.inv hx hlv hr, ?_, ?_, ?_, fun _ _ hf => absurd hf (by simp)⟩
  · rw [hr.root, hlevelc, ← h.height]
    rfl
  · rw [hr.root, createNewRoot_parent, if_neg (by omega), if_pos rfl]
  · intro p hp hpl y hy
    rw [createNewRoot_parent]
    by_cases hpc : p = t.count
    · subst hpc
      rw [Node.children_of_inner hr.isLeaf, hr.first, hr.seps] at hy
      refine if_pos ?_
      simp only [List.map_singleton, List.mem_cons, List.not_mem_nil, or_false,
        Option.some.injEq] at hy
      tauto
    · rw [hr.count] at hp
      have hp' : p < t.count := by omega
      rw [hr.frame p hpc] at hpl hy
      rcases h.tiled.children_spec h.inv hp' hpl hy with ⟨hyc, hyl, _, _⟩
      have hle := (h.inv.node p hp').level_le
      have hne : ¬ (y = x ∨ y = t.root) := by
        rintro (rfl | rfl)
        · omega
        · omega
      rw [if_neg hne, if_neg hyc.ne]
      exact h.parent_child p hp' hpl y hy

end BLinkTree

import BLinkTree.Tbb.Parents

/-! # What a task does with a node

One specification for the work of a task on a leaf, one for the work on an inner node,
and one for the moves. A task carries its separator to whatever node the parent
pointers and its own key lead to; the separator may end up outside the range of that
node, but a search only relies on where the separator's own node starts. The parameter
`ranged` adds what holds as long as no separator leaves its range.
-/

namespace BLinkTree.Tbb

open Linearization Interleaving

variable {ranged : Prop} {c : Capacity} {t t' : Tree} {g g' : Ghost Nat} {i n s x : Nat}

/-- The invariants of the TBB trees. -/
structure Sound (ranged : Prop) (c : Capacity) (t : Tree) (g : Ghost Nat) : Prop where
  inv : Inv c t g
  parent : ParentInv ranged t g
  range : ranged → RangeInv t g

theorem sound_empty (ranged : Prop) (c : Capacity) (memory : Nat → Memory) :
    Sound ranged c (Tree.empty memory) (Ghost.initial Nat) :=
  ⟨inv_empty c memory, parentInv_empty memory, fun _ => rangeInv_empty memory⟩

/-- The task is going to insert separator `x` with key `s` into a node at or right of `n`. -/
structure Carries (ranged : Prop) (t : Tree) (g : Ghost Nat) (i n s x : Nat) : Prop where
  lt_count : n < t.count
  inner : (t.node n).isLeaf = false
  pending : Pending t g i s x
  level_lt : g.level x < g.level n
  low_le : ranged → g.low n ≤ s

theorem Carries.evolves {j : Nat} (h : Carries ranged t g j n s x) (he : Evolves i t g t' g')
    (hj : j ≠ i) : Carries ranged t' g' j n s x := by
  refine ⟨lt_of_lt_of_le h.lt_count he.count_le, ?_, h.pending.evolves he hj, ?_, ?_⟩
  · rw [he.isLeaf_eq n h.lt_count, h.inner]
  · rw [he.level_eq n h.lt_count, he.level_eq x h.pending.lt_count]
    exact h.level_lt
  · rw [he.low_eq n h.lt_count]
    exact h.low_le

/-- What task `i` leaves when it worked on a node: it is complete, or on its way up. -/
def Worked (ranged : Prop) (c : Capacity) (i : Nat) (t : Tree) (g : Ghost Nat) (x : Executed) :
    Prop :=
  ∃ g', Sound ranged c x.tree g' ∧ Evolves i t g x.tree g' ∧
    (x.next = none ∧ x.complete = true ∨ ∃ p y s, x.next = some p ∧ x.separator = some (y, s) ∧
      Carries ranged x.tree g' i p s y)

/-! ## The way up -/

/-- After a split of `n` the new node gets the parent of `n`, and other nodes keep their
parent or get a good one. -/
theorem goUp_spec {t₀ : Tree} {g₀ : Ghost Nat} (h : Inv c t g) (hr : ranged → RangeInv t g)
    (he : Evolves i t₀ g₀ t g) (h0 : ParentInv ranged t₀ g₀) (hn : n < t₀.count)
    (hroot : t.root = t₀.root) (hcount : t.count = t₀.count + 1)
    (hp : Pending t g i s t₀.count) (hlv : g.level t₀.count = g.level n)
    (hlow : ranged → g.low n ≤ s) (hpn : t.parent n = t₀.parent n)
    (hpr : t.parent t₀.root = none)
    (hpar : ∀ m < t.count, m ≠ t.root →
      t.parent m = Slots.store t₀.parent t₀.count (t₀.parent n) m ∨ HasParent ranged t g m)
    (e : Option Value) :
    Worked ranged c i t₀ g₀ (goUp t n t₀.count s e) ∧
      (goUp t n t₀.count s e).tree.content = t.content := by
  have hold : ∀ m < t₀.count, m ≠ t.root → HasParent ranged t g m := by
    intro m hm hmr
    rcases hpar m (by omega) hmr with heq | hup
    · rw [hroot] at hmr
      rw [Slots.store_of_ne _ _ hm.ne] at heq
      exact (h0.up m hm hmr).frame hm he heq
    · exact hup
  cases hcase : t.parent n with
  | none =>
      have hnr : n = t.root := by
        by_contra hne
        rcases hold n hn hne with ⟨p, h1, _⟩
        rw [hcase] at h1
        exact absurd h1 (by simp)
      have hx : goUp t n t₀.count s e =
          ⟨t.createNewRoot n t₀.count s, some (t₀.count, s), none, e, true⟩ := by
        simp [goUp, hcase]
      rw [hx, hnr]
      rcases createNewRoot_spec h hp with ⟨g', h1, h2, h3, h4⟩
      have hpi : ParentInv ranged (t.createNewRoot t.root t₀.count s) g' := by
        apply parentInv_newRoot h1 h.root_lt _ h2 h4 hp.lt_count
        · rw [hlv, hnr]
        · exact fun m hm hmr hmx => hold m (by omega) hmr
      have hri : ranged → RangeInv (t.createNewRoot t.root t₀.count s) g' := fun hb =>
        (hr hb).newRoot h1 (createNewRoot_isNewRoot t t.root t₀.count s) h2 hp.key_lt
      exact ⟨⟨g', ⟨h1, hpi, hri⟩, he.trans h2, Or.inl ⟨rfl, rfl⟩⟩, h3⟩
  | some p =>
      have hx : goUp t n t₀.count s e = ⟨t, some (t₀.count, s), some p, e, false⟩ := by
        simp [goUp, hcase]
      have hnr : n ≠ t.root := by
        intro hn'
        rw [hn', hroot, hpr] at hcase
        exact absurd hcase (by simp)
      rcases hold n hn hnr with ⟨p', h1, h2, h3, h4⟩
      obtain rfl : p = p' := by simpa [hcase] using h1
      have hlowp : ranged → g.low p ≤ s := fun hb => (h4 hb).trans (hlow hb)
      have hup : ∀ m < t.count, m ≠ t.root → HasParent ranged t g m := by
        intro m hm hmr
        by_cases hmc : m = t₀.count
        · rcases hpar m hm hmr with heq | hup
          · rw [hmc, Slots.store_self, ← hpn, hcase] at heq
            rw [hmc]
            exact ⟨p, heq, h2, by omega, fun hb => by rw [hp.low_eq]; exact hlowp hb⟩
          · exact hup
        · exact hold m (by omega) hmr
      have hcar : Carries ranged t g i p s t₀.count :=
        ⟨h2, (h.node p h2).inner_of_level_pos (by omega), hp, by omega, hlowp⟩
      rw [hx]
      rw [← hroot] at hpr
      exact ⟨⟨g, ⟨h, ⟨hpr, hup⟩, hr⟩, he, Or.inr ⟨p, _, s, rfl, rfl, hcar⟩⟩, rfl⟩

theorem goUp_effect (t : Tree) (n x s : Nat) (e : Option Value) : (goUp t n x s e).effect = e := by
  unfold goUp
  split <;> rfl

/-! ## Leaves -/

theorem insertIntoLeafNode_spec (h : Sound ranged c t g) (i : Nat)
    (hn : n < t.count) (hl : (t.node n).isLeaf = true) {k : Nat} (hlow : g.low n ≤ k)
    (hhigh : k < (t.node n).highKey) (v : Value) :
    Worked ranged c i t g (insertIntoLeafNode c t n k v) ∧
      (insertIntoLeafNode c t n k v).effect = some 0 ∧
      (insertIntoLeafNode c t n k v).tree.content = OrderedMap.insertIfAbsent k v t.content := by
  rcases insertIntoLeaf_spec h.inv i hn hl hlow hhigh v with ⟨g', h1, h2, h3, h4⟩
  have hri : ranged → RangeInv (t.insertIntoLeaf c n k v).1 g' :=
    fun hb => (h.range hb).insertIntoLeaf hn hl h2
  rcases insertIntoLeaf_cases c t n k v with ⟨hk, he⟩ | ⟨hk, hf, he⟩ | ⟨hk, hf, he⟩
  · rw [he] at h3
    have hx : insertIntoLeafNode c t n k v = ⟨t, none, none, some 0, true⟩ := if_pos hk
    rw [hx]
    exact ⟨⟨g, h, Evolves.refl i t g, Or.inl ⟨rfl, rfl⟩⟩, rfl, h3⟩
  · rw [he] at h1 h2 h3 hri
    have hx : insertIntoLeafNode c t n k v =
        ⟨t.setNode n ((t.node n).insertValue ((t.node n).index k) v k), none, none, some 0, true⟩ :=
      (if_neg hk).trans (if_pos hf)
    have hpi := h.parent.step h2 rfl h.parent.root fun m hm _ => Or.inl ⟨hm, rfl⟩
    rw [hx]
    exact ⟨⟨g', ⟨h1, hpi, hri⟩, h2, Or.inl ⟨rfl, rfl⟩⟩, rfl, h3⟩
  · rw [he] at h1 h2 h3 h4 hri
    have hx : insertIntoLeafNode c t n k v = goUp (t.splitLeafNode c n k v).1 n t.count
        (((t.splitLeafNode c n k v).1.node t.count).keys 0) (some 0) :=
      (if_neg hk).trans (if_neg (by rw [hf]; decide))
    have hpar : (t.splitLeafNode c n k v).1.parent =
        Slots.store t.parent t.count (t.parent n) := rfl
    have hlv : g'.level t.count = g'.level n := by
      rw [h4.2, h2.level_eq n hn, (h.inv.node n hn).leaf_iff.mp hl]
    have hlows : g'.low n ≤ ((t.splitLeafNode c n k v).1.node t.count).keys 0 := by
      have hnc : n < (t.splitLeafNode c n k v).1.count := lt_of_lt_of_le hn h2.count_le
      have hleft := splitLeafNode_left (c := c) hn k v
      have hrange := ((h1.node n hnc).leaf_range (by rw [h2.isLeaf_eq n hn, hl])).1
      rw [hleft, splitLeafNode_new] at *
      exact hrange.le
    have hpn : (t.splitLeafNode c n k v).1.parent n = t.parent n := by
      rw [hpar]
      exact Slots.store_of_ne _ _ hn.ne
    have hpr : (t.splitLeafNode c n k v).1.parent t.root = none := by
      rw [hpar, Slots.store_of_ne _ _ h.inv.root_lt.ne]
      exact h.parent.root
    rcases goUp_spec h1 hri h2 h.parent hn rfl rfl h4.1 hlv (fun _ => hlows) hpn hpr
      (fun m _ _ => Or.inl (by rw [hpar])) (some 0) with ⟨hw, hc⟩
    rw [hx]
    exact ⟨hw, goUp_effect _ _ _ _ _, hc.trans h3⟩

/-- The leaf step of a task on the leaf that covers its key. -/
theorem work_leaf_spec (h : Sound ranged c t g) (i : Nat) {o : Op}
    (hr : Reached t g n o.key) (hl : (t.node n).isLeaf = true)
    (hh : o.key < (t.node n).highKey) :
    ∃ x r, work c t o none n = some x ∧ Worked ranged c i t g x ∧ x.effect = some r ∧
      x.tree.content = finiteMap.apply t.content o ∧ finiteMap.allows t.content o r ∧
      (x.next ≠ none → r = 0 ∧ ∃ k v, o = .insert k v) := by
  cases o with
  | insert k v =>
      rcases insertIntoLeafNode_spec h i hr.lt_count hl hr.low_le hh v with ⟨h1, h2, h3⟩
      exact ⟨_, 0, rfl, h1, h2, h3, rfl, fun _ => ⟨rfl, k, v, rfl⟩⟩
  | update k v =>
      rcases updateValue_spec h.inv i hr.lt_count hl hr.low_le hh v with ⟨h1, h2, h3⟩
      have hpi := h.parent.step h2 rfl h.parent.root fun m hm _ => Or.inl ⟨hm, rfl⟩
      have hri : ranged → RangeInv (t.setNode n ((t.node n).updateValue c k v)) g := by
        intro hb m hm
        by_cases hmn : m = n
        · subst hmn
          exact ranged_leaf ((h2.isLeaf_eq m hm).trans hl)
        · exact (h.range hb m hm).frame hm h2 (setNode_node_of_ne t _ hmn)
      exact ⟨_, 0, rfl, ⟨g, ⟨h1, hpi, hri⟩, h2, Or.inl ⟨rfl, rfl⟩⟩, rfl, h3, rfl,
        fun hne => absurd rfl hne⟩
  | find k =>
      refine ⟨_, _, rfl, ⟨g, h, Evolves.refl i t g, Or.inl ⟨rfl, rfl⟩⟩, rfl, rfl, ?_,
        fun hne => absurd rfl hne⟩
      exact fun v hv => findValue_spec h.inv hr.lt_count hl hr.low_le hh v hv

/-! ## Inner nodes -/

/-- Where a node stays when a separator enters an inner node without a split. -/
theorem insertIntoInnerNode_room (h : Sound ranged c t g) (hc : Carries ranged t g i n s x)
    (hf : (t.node n).isFull c = false) (hhigh : ranged → s < (t.node n).highKey) :
    ∃ r, insertIntoInnerNode c t n s x = some r ∧ Worked ranged c i t g r ∧ r.effect = none ∧
      r.tree.content = t.content := by
  have hn := hc.lt_count
  have hw : IsWrite t (t.setNode n ((t.node n).insertSeparator ((t.node n).index s) x s)) n :=
    isWrite_setNode rfl rfl rfl
  rcases insertIntoInner_spec h.inv hn hc.inner hc.pending hc.level_lt with
    ⟨t1, up, g', h1, h2, h3, h4, _⟩
  have ht1 : t1 = t.setNode n ((t.node n).insertSeparator ((t.node n).index s) x s) := by
    have he : t.insertIntoInner c n s x = some
      (t.setNode n ((t.node n).insertSeparator ((t.node n).index s) x s), none) := if_pos hf
    rw [h1, Option.some.injEq, Prod.mk.injEq] at he
    exact he.1
  rw [ht1] at h2 h3 h4
  have hseps := Node.seps_insertSeparator hc.inner (h.inv.node n hn).wellFormed.monotone s x
  have hri : ranged → RangeInv (t.setNode n ((t.node n).insertSeparator ((t.node n).index s) x s))
      g' := fun hb => (h.range hb).write hw h3 hn (by rw [setNode_node_self]; exact hseps)
    (hc.low_le hb) (hhigh hb)
  have hxr : x ≠ t.root := by
    intro hx
    have h5 := hc.level_lt
    have h6 := (h.inv.node n hn).level_le
    rw [hx] at h5
    omega
  have hpi : ParentInv ranged ((t.setNode n ((t.node n).insertSeparator ((t.node n).index s) x
      s)).setParent x (some n)) g' := by
    apply h.parent.step (h3.setParents _) rfl
    · exact (Slots.store_of_ne _ _ hxr.symm).trans h.parent.root
    · intro m hm _
      by_cases hmx : m = x
      · have hm' : m < t.count := hm
        refine Or.inr ⟨n, by rw [hmx]; exact Slots.store_self _ _ _, hn, ?_, ?_⟩
        · rw [h3.level_eq m hm', h3.level_eq n hn, hmx]
          exact hc.level_lt
        · rw [h3.low_eq m hm', h3.low_eq n hn, hmx, hc.pending.low_eq]
          exact hc.low_le
      · exact Or.inl ⟨hm, Slots.store_of_ne _ _ hmx⟩
  exact ⟨_, if_pos hf, ⟨g', ⟨h2.setParents _, hpi, fun hb => hri hb⟩, h3.setParents _,
    Or.inl ⟨rfl, rfl⟩⟩, rfl, (h2.content_setParents _).trans h4⟩

theorem insertIntoInnerNode_split (h : Sound ranged c t g) (hc : Carries ranged t g i n s x)
    (hf : (t.node n).isFull c = true) (hhigh : ranged → s < (t.node n).highKey) :
    ∃ r, insertIntoInnerNode c t n s x = some r ∧ Worked ranged c i t g r ∧ r.effect = none ∧
      r.tree.content = t.content := by
  have hn := hc.lt_count
  have hi := h.inv.node n hn
  have hsize : (t.node n).size = c.maxKeys := by
    rw [hi.size_eq_of_full hf]
    simp [Node.capacity, hc.inner]
  rcases splitInnerNode_inv h.inv hn hc.inner hc.pending hc.level_lt hsize with
    ⟨t1, h1, hdiv, h2, h3, h4, h5⟩
  have hsplit := hdiv.split
  have hpar := hdiv.parent
  have hlv : (g.innerSplit i n t.count s (t.innerHalves c n s x).2.2
      ((t1.node t.count).seps.map Prod.fst)).level t.count = g.level n := Slots.store_self _ _ _
  generalize g.innerSplit i n t.count s (t.innerHalves c n s x).2.2
    ((t1.node t.count).seps.map Prod.fst) = g1 at h2 h3 h4 hlv
  have hlv' : g1.level t.count = g1.level n := by rw [hlv, h3.level_eq n hn]
  have hcount : t.count < t1.count := by rw [hsplit.count]; omega
  have hri : ranged → RangeInv t1 g1 ∧ g.low n ≤ (t.innerHalves c n s x).2.2 ∧
      (t.innerHalves c n s x).2.2 < (t.node n).highKey := fun hb =>
    (h.range hb).split h2 hsplit h3 hn hdiv.cut (hc.pending.sorted_insertNew h.inv hn hc.inner)
      (hc.low_le hb) (hhigh hb)
  have hchild : ∀ y, some y ∈ (t1.node t.count).children → HasParent ranged t1 g1 y ∧
      g1.level y < g1.level n := by
    intro y hy
    rcases (h2.node t.count hcount).children_spec (hsplit.new_isLeaf.trans hc.inner) hy with
      ⟨k1, k2, k3⟩
    refine ⟨⟨t.count, by rw [hpar y, if_pos hy], hcount, k2, ?_⟩, by rw [← hlv']; exact k2⟩
    exact fun hb => k3 ((hri hb).1 t.count hcount)
  -- a node on the level of `n` or above keeps its parent
  have hkeep : ∀ m < t.count, g.level n ≤ g.level m → t1.parent m = t.parent m := by
    intro m hm hlvm
    have hm1 : some m ∉ (t1.node t.count).children := by
      intro hy
      have := (hchild m hy).2
      rw [h3.level_eq m hm, h3.level_eq n hn] at this
      omega
    have hmx : m ≠ x := by
      intro hmx
      have := hc.level_lt
      rw [← hmx] at this
      omega
    rw [hpar m, if_neg hm1, Tree.innerParent]
    split
    · rw [Slots.store_of_ne _ _ hmx, Slots.store_of_ne _ _ hm.ne]
    · rw [Slots.store_of_ne _ _ hm.ne]
  have hpars : ∀ m < t1.count, m ≠ t1.root →
      t1.parent m = Slots.store t.parent t.count (t.parent n) m ∨ HasParent ranged t1 g1 m := by
    intro m hm hmr
    by_cases hm1 : some m ∈ (t1.node t.count).children
    · exact Or.inr (hchild m hm1).1
    · have hpm := hpar m
      rw [if_neg hm1, Tree.innerParent] at hpm
      split at hpm
      · by_cases hmx : m = x
        · rw [hmx, Slots.store_self] at hpm
          have hxc := hc.pending.lt_count
          refine Or.inr ⟨n, by rw [hmx]; exact hpm, by omega, ?_, ?_⟩
          · rw [hmx, h3.level_eq x hxc, h3.level_eq n hn]
            exact hc.level_lt
          · rw [hmx, h3.low_eq x hxc, h3.low_eq n hn, hc.pending.low_eq]
            exact hc.low_le
        · rw [Slots.store_of_ne _ _ hmx] at hpm
          exact Or.inl hpm
      · exact Or.inl hpm
  rcases goUp_spec h2 (fun hb => (hri hb).1) h3 h.parent hn hsplit.root hsplit.count h4 hlv'
    (fun hb => by rw [h3.low_eq n hn]; exact (hri hb).2.1) (hkeep n hn le_rfl)
    ((hkeep t.root h.inv.root_lt hi.level_le).trans h.parent.root) hpars none with ⟨hw, hcont⟩
  have hx : insertIntoInnerNode c t n s x =
      some (goUp t1 n t.count (t.innerHalves c n s x).2.2 none) := by
    simp only [insertIntoInnerNode, hf, h1]
    rfl
  exact ⟨_, hx, hw, goUp_effect _ _ _ _ _, hcont.trans h5⟩

theorem insertIntoInnerNode_spec (h : Sound ranged c t g) (hc : Carries ranged t g i n s x)
    (hhigh : ranged → s < (t.node n).highKey) :
    ∃ r, insertIntoInnerNode c t n s x = some r ∧ Worked ranged c i t g r ∧ r.effect = none ∧
      r.tree.content = t.content := by
  cases hf : (t.node n).isFull c with
  | false => exact insertIntoInnerNode_room h hc hf hhigh
  | true => exact insertIntoInnerNode_split h hc hf hhigh

/-! ## High keys of the leaves -/

theorem goUp_node (t : Tree) {n x s m : Nat} (e : Option Value) (hm : m < t.count) :
    (goUp t n x s e).tree.node m = t.node m := by
  unfold goUp
  cases t.parent n with
  | none => exact (createNewRoot_isNewRoot t n x s).frame m hm.ne
  | some p => rfl

theorem insertIntoLeafNode_node (t : Tree) {n m k : Nat} (v : Value) (hm : m < t.count) :
    (insertIntoLeafNode c t n k v).tree.node m = (t.insertIntoLeaf c n k v).1.node m := by
  rcases insertIntoLeaf_cases c t n k v with ⟨hk, he⟩ | ⟨hk, hf, he⟩ | ⟨hk, hf, he⟩
  · have hx : insertIntoLeafNode c t n k v = ⟨t, none, none, some 0, true⟩ := if_pos hk
    rw [hx, he]
  · have hx : insertIntoLeafNode c t n k v =
        ⟨t.setNode n ((t.node n).insertValue ((t.node n).index k) v k), none, none, some 0, true⟩ :=
      (if_neg hk).trans (if_pos hf)
    rw [hx, he]
  · have hx : insertIntoLeafNode c t n k v = goUp (t.splitLeafNode c n k v).1 n t.count
        (((t.splitLeafNode c n k v).1.node t.count).keys 0) (some 0) :=
      (if_neg hk).trans (if_neg (by rw [hf]; decide))
    have hm' : m < (t.splitLeafNode c n k v).1.count := Nat.lt_succ_of_lt hm
    rw [hx, he, goUp_node _ _ hm']

theorem insertIntoInnerNode_node {r : Executed} (hr : insertIntoInnerNode c t n s x = some r)
    {m : Nat} (hm : m < t.count) (hmn : m ≠ n) : r.tree.node m = t.node m := by
  cases hf : (t.node n).isFull c with
  | false =>
      have hx := hr.symm.trans (if_pos hf)
      rw [Option.some.injEq] at hx
      rw [hx]
      exact setNode_node_of_ne t _ hmn
  | true =>
      have hx := hr.symm.trans (if_neg (by simp [hf]))
      rcases Option.map_eq_some_iff.mp hx.symm with ⟨q, hsplit, rfl⟩
      rcases splitInnerNode_frame hsplit with ⟨hcount, hframe⟩
      rw [goUp_node _ _ (by omega)]
      exact hframe m hm hmn

/-- The work of a task changes no other node. -/
theorem work_frame {o : Op} {separator : Option (Nat × Nat)} {y : Executed}
    (hy : work c t o separator n = some y) {m : Nat} (hm : m < t.count) (hmn : m ≠ n) :
    y.tree.node m = t.node m := by
  cases o with
  | insert k v =>
      cases separator with
      | none =>
          obtain rfl : insertIntoLeafNode c t n k v = y := by simpa [work] using hy
          rw [insertIntoLeafNode_node t v hm]
          exact insertIntoLeaf_frame hm hmn
      | some u => exact insertIntoInnerNode_node hy hm hmn
  | update k v =>
      obtain rfl : _ = y := by simpa [work] using hy
      exact setNode_node_of_ne t _ hmn
  | find k =>
      obtain rfl : _ = y := by simpa [work] using hy
      rfl

/-- The work of a task cuts a key off a leaf only by a split of that leaf. -/
theorem work_below {o : Op} {separator : Option (Nat × Nat)} {y : Executed}
    (hsep : ∀ x s, separator = some (x, s) → Carries ranged t g i n s x)
    (hy : work c t o separator n = some y) {m q : Nat} (hm : m < t.count)
    (hl : (t.node m).isLeaf = true) (hq : q < (t.node m).highKey)
    (hcut : separator = none → m = n → ¬ CutsOff c t o n q) :
    q < (y.tree.node m).highKey := by
  cases o with
  | insert k v =>
      cases separator with
      | none =>
          obtain rfl : insertIntoLeafNode c t n k v = y := by simpa [work] using hy
          rw [insertIntoLeafNode_node t v hm]
          exact insertIntoLeaf_below hm hq (hcut rfl)
      | some u =>
          have hc := hsep u.1 u.2 rfl
          have hmn : m ≠ n := by
            intro hmn
            rw [hmn, hc.inner] at hl
            exact absurd hl (by decide)
          rw [insertIntoInnerNode_node hy hm hmn]
          exact hq
  | update k v =>
      obtain rfl : _ = y := by simpa [work] using hy
      by_cases hmn : m = n
      · rw [hmn] at hq ⊢
        show q < ((t.setNode n _).node n).highKey
        rw [setNode_node_self, Node.highKey_updateValue]
        exact hq
      · show q < ((t.setNode n _).node m).highKey
        rw [setNode_node_of_ne _ _ hmn]
        exact hq
  | find k =>
      obtain rfl : _ = y := by simpa [work] using hy
      exact hq

/-! ## Moves -/

theorem advance_eq_none {o : Op} {separator : Option (Nat × Nat)}
    (h : advance t o separator n = none) :
    o.key < (t.node n).highKey ∧ (separator = none → (t.node n).isLeaf = true) := by
  unfold advance at h
  split at h
  · simp at h
  next hh =>
    split at h
    · simp at h
    next hs =>
      refine ⟨not_le.mp hh, fun hn => ?_⟩
      cases hl : (t.node n).isLeaf with
      | true => rfl
      | false => exact absurd ⟨hn, hl⟩ hs

/-- What a task knows about the node it waits for. -/
def Approaches (ranged : Prop) (t : Tree) (g : Ghost Nat) (i : Nat) (o : Op) (n : Nat) :
    Option (Nat × Nat) → Prop
  | none => o.key < maxKey ∧ Reached t g n o.key
  | some (x, s) => o.key < maxKey ∧ (∃ k v, o = .insert k v) ∧ Carries ranged t g i n s x

/-- The key and the separator key of a task are on the same side of the node's high key. -/
def SameSide (t : Tree) (o : Op) (n : Nat) : Option (Nat × Nat) → Prop
  | none => True
  | some (_, s) => (t.node n).highKey ≤ o.key ↔ (t.node n).highKey ≤ s

instance (t : Tree) (o : Op) (n : Nat) : (separator : Option (Nat × Nat)) →
    Decidable (SameSide t o n separator)
  | none => inferInstanceAs (Decidable True)
  | some (_, s) =>
      inferInstanceAs (Decidable ((t.node n).highKey ≤ o.key ↔ (t.node n).highKey ≤ s))

theorem Approaches.evolves {j : Nat} {o : Op} {separator : Option (Nat × Nat)}
    (h : Approaches ranged t g j o n separator) (he : Evolves i t g t' g') (hj : j ≠ i) :
    Approaches ranged t' g' j o n separator := by
  cases separator with
  | none => exact ⟨h.1, h.2.evolves he⟩
  | some u => exact ⟨h.1, h.2.1, h.2.2.evolves he hj⟩

/-- A task that does not work on its node moves to a node it may work on. -/
theorem advance_spec (h : Inv c t g) {o : Op} {separator : Option (Nat × Nat)}
    {next : Option Nat} (ha : Approaches ranged t g i o n separator)
    (hside : ranged → SameSide t o n separator)
    (hs : advance t o separator n = some next) :
    ∃ m, next = some m ∧ Approaches ranged t g i o m separator := by
  unfold advance at hs
  cases separator with
  | none =>
      rcases ha with ⟨hk, hr⟩
      split at hs
      next hh =>
        rcases h.right_move hr.lt_count hk hh with ⟨r, h1, h2, h3, _, _⟩
        rw [h1, Option.some.injEq] at hs
        exact ⟨r, hs.symm, hk, h2, h3⟩
      next hh =>
        split at hs
        next hl =>
          rcases (h.node n hr.lt_count).child hl.2 hr.low_le with ⟨s, h1, h2, h3, _⟩
          rw [h1, Option.some.injEq] at hs
          exact ⟨s, hs.symm, hk, h2, h3⟩
        · simp at hs
  | some u =>
      rcases ha with ⟨hk, ho, hc⟩
      split at hs
      next hh =>
        rcases h.right_move hc.lt_count hk hh with ⟨r, h1, h2, h3, h4, h5⟩
        have hlow : ranged → g.low r ≤ u.2 := by
          intro hb
          rw [((h.node n hc.lt_count).right_some r h1).2.2.2]
          exact (hside hb).mp hh
        have hlv : g.level u.1 < g.level r := by
          rw [h4]
          exact hc.level_lt
        rw [h1, Option.some.injEq] at hs
        exact ⟨r, hs.symm, hk, ho, h2, h5.trans hc.inner, hc.pending, hlv, hlow⟩
      · simp at hs

end BLinkTree.Tbb

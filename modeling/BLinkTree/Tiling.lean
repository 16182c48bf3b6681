import BLinkTree.Operations

/-! # Levels that tile

The tree that one thread builds. On every level the nodes from left to right, with
their lower bounds, are the separators of the level above from left to right, with
the keys they start at. While an insert carries a separator upwards, that separator is
the one entry that the level above lacks.
-/

namespace BLinkTree

variable {ι : Type} {c : Capacity} {t t' : Tree} {g g' : Ghost ι} {i : ι} {n l s x : Nat}
  {up : Option (Nat × Nat)}

/-- The nodes of a list with their lower bounds. -/
def Ghost.starts (g : Ghost ι) (l : List Nat) : List (Nat × Option Nat) :=
  l.map fun n => (g.low n, some n)

/-- The separators of an inner node with the keys they start at. -/
def Tree.slots (t : Tree) (g : Ghost ι) (n : Nat) : List (Nat × Option Nat) :=
  (g.low n, (t.node n).first) :: (t.node n).seps

/-- The separators that lead to level `l`, from left to right. -/
def Tree.above (t : Tree) (g : Ghost ι) (l : Nat) : List (Nat × Option Nat) :=
  if l = g.level t.root then [(0, some t.root)] else (g.chain (l + 1)).flatMap (t.slots g)

/-- The separators that lead to level `l` once the pair `up` is stored. -/
def Ghost.posted (g : Ghost ι) (up : Option (Nat × Nat)) (l : Nat)
    (above : List (Nat × Option Nat)) : List (Nat × Option Nat) :=
  match up with
  | none => above
  | some (x, s) => if g.level x = l then OrderedMap.insertNew s (some x) above else above

/-- Every level is what the separators of the level above and the pair `up` lead to. -/
def Tiled (t : Tree) (g : Ghost ι) (up : Option (Nat × Nat)) : Prop :=
  ∀ l ≤ g.level t.root, g.starts (g.chain l) = g.posted up l (t.above g l)

theorem tiled_empty (memory : Nat → Memory) : Tiled (Tree.empty memory) (Ghost.initial ι) none := by
  intro l hl
  obtain rfl : l = 0 := Nat.le_zero.mp hl
  rfl

/-! ## Order -/

theorem posted_sublist (g : Ghost ι) (up : Option (Nat × Nat)) (l : Nat)
    (above : List (Nat × Option Nat)) : above.Sublist (g.posted up l above) := by
  cases up with
  | none => exact List.Sublist.refl _
  | some u =>
      simp only [Ghost.posted]
      split
      · exact OrderedMap.sublist_insertNew _ _ _
      · exact List.Sublist.refl _

theorem above_of_lt (hl : l < g.level t.root) :
    t.above g l = (g.chain (l + 1)).flatMap (t.slots g) := if_neg hl.ne

/-- The lower bounds of a level are strictly increasing: on the leaf level by the ranges
of the leaves, and above it because every node starts with its first separator. -/
theorem Tiled.starts_sorted (ht : Tiled t g up) (h : Inv c t g) (hl : l ≤ g.level t.root) :
    OrderedMap.Sorted (g.starts (g.chain l)) := by
  induction l with
  | zero =>
      refine List.pairwise_map.mpr (h.chain_ordered.imp_of_mem ?_)
      intro a b ha _ hab
      rcases (h.chain.mem 0 a).mp ha with ⟨hac, hlv⟩
      have hi := h.node a hac
      have := (hi.leaf_range (hi.leaf_iff.mpr hlv)).1
      show g.low a < g.low b
      omega
  | succ l ih =>
      have hs := ih (by omega)
      rw [ht l (by omega)] at hs
      have habove := hs.sublist (posted_sublist g up l _)
      rw [above_of_lt (by omega)] at habove
      refine List.pairwise_map.mpr ((List.pairwise_flatMap.mp habove).2.imp ?_)
      intro a b hab
      exact hab (_, (t.node a).first) (List.mem_cons_self ..) (_, (t.node b).first)
        (List.mem_cons_self ..)

theorem Tiled.above_sorted (ht : Tiled t g up) (h : Inv c t g) (hl : l ≤ g.level t.root) :
    OrderedMap.Sorted (t.above g l) := by
  have hs := ht.starts_sorted h hl
  rw [ht l hl] at hs
  exact hs.sublist (posted_sublist g up l _)

theorem Inv.low_lt_maxKey (h : Inv c t g) (hn : n < t.count) : g.low n < maxKey := by
  rw [← h.lowKey_eq hn]
  unfold Tree.lowKey
  split
  · decide
  next m hm =>
    have hr : (t.node m).rightSibling = some n := by simpa using List.find?_some hm
    have hmc : m < t.count := List.mem_range.mp (List.mem_of_find?_eq_some hm)
    exact ((h.node m hmc).right_some n hr).1

/-- The nodes right of a node start no earlier than the node ends. -/
theorem Tiled.low_lt_highKey (ht : Tiled t g up) (h : Inv c t g) (hn : n < t.count) :
    g.low n < (t.node n).highKey := by
  have hi := h.node n hn
  cases hr : (t.node n).rightSibling with
  | none =>
      rw [hi.right_none hr]
      exact h.low_lt_maxKey hn
  | some r =>
      rcases h.chain.around hn with ⟨pre, post, he, _, _⟩
      have hlink := h.chain.linked (g.level n)
      have hs := ht.starts_sorted h hi.level_le
      rw [he] at hlink hs
      have hhead : post.head? = some r := hlink.suffix.1.symm.trans hr
      cases post with
      | nil => simp at hhead
      | cons b post =>
          obtain rfl : b = r := by simpa using hhead
          rw [← (hi.right_some b hr).2.2.2]
          rw [Ghost.starts, List.map_append, OrderedMap.sorted_append] at hs
          exact (OrderedMap.sorted_cons.mp hs.2.1).1 (g.low b, some b) (by simp)

theorem Tiled.ordered (ht : Tiled t g up) (h : Inv c t g) (l : Nat) :
    Ordered t g (g.chain l) := by
  refine h.ordered_of_linked (h.chain.linked l) fun n hn => ?_
  have hnc := ((h.chain.mem l n).mp hn).1
  exact ⟨hnc, ht.low_lt_highKey h hnc⟩

/-! ## Inner nodes -/

theorem NodeInv.level_pos (h : NodeInv c t g n) (hl : (t.node n).isLeaf = false) :
    0 < g.level n := by
  refine Nat.pos_of_ne_zero fun h0 => ?_
  have hleaf := h.leaf_iff.mpr h0
  rw [hl] at hleaf
  exact absurd hleaf (by decide)

/-- The separators of an inner node are part of the level above the next lower one. -/
theorem Tiled.slots_subset (h : Inv c t g) (hn : n < t.count)
    (hl : g.level n = l + 1) {e : Nat × Option Nat} (he : e ∈ t.slots g n) : e ∈ t.above g l := by
  have hle := (h.node n hn).level_le
  rw [above_of_lt (by omega)]
  exact List.mem_flatMap.mpr ⟨n, (h.chain.mem _ n).mpr ⟨hn, hl⟩, he⟩

/-- A separator starts at its key and is one level below its node. -/
theorem Tiled.mem_slots (ht : Tiled t g up) (h : Inv c t g) (hn : n < t.count)
    (hl : (t.node n).isLeaf = false) {e : Nat × Option Nat} (he : e ∈ t.slots g n) :
    ∃ y, e = (g.low y, some y) ∧ y < t.count ∧ g.level y + 1 = g.level n := by
  have hi := h.node n hn
  have hpos := hi.level_pos hl
  obtain ⟨l, hlv⟩ : ∃ l, g.level n = l + 1 := ⟨g.level n - 1, by omega⟩
  have hmem := Tiled.slots_subset h hn hlv he
  have hle := hi.level_le
  have hstart := (posted_sublist g up l _).subset hmem
  rw [← ht l (by omega)] at hstart
  rcases List.mem_map.mp hstart with ⟨y, hy, rfl⟩
  rcases (h.chain.mem l y).mp hy with ⟨hyc, hyl⟩
  exact ⟨y, rfl, hyc, by omega⟩

/-- The separators of a node start inside the range of the node. -/
theorem Tiled.slots_range (ht : Tiled t g up) (h : Inv c t g) (hn : n < t.count)
    (hl : (t.node n).isLeaf = false) {e : Nat × Option Nat} (he : e ∈ t.slots g n) :
    g.low n ≤ e.1 ∧ e.1 < (t.node n).highKey := by
  have hi := h.node n hn
  have hpos := hi.level_pos hl
  have hle := hi.level_le
  rcases h.chain.around hn with ⟨pre, post, hc, _, _⟩
  have hlink := h.chain.linked (g.level n)
  have hs := ht.above_sorted h (l := g.level n - 1) (by omega)
  rw [above_of_lt (by omega), show g.level n - 1 + 1 = g.level n by omega, hc] at hs
  rw [hc] at hlink
  rcases List.pairwise_flatMap.mp hs with ⟨hself, hcross⟩
  constructor
  · rcases List.mem_cons.mp he with rfl | he'
    · exact le_rfl
    · exact ((OrderedMap.sorted_cons.mp (hself n (by simp))).1 e he').le
  · rcases List.pairwise_append.mp hcross with ⟨_, hafter, _⟩
    cases hp : post with
    | nil =>
        have hr : (t.node n).rightSibling = none := by
          rw [hlink.suffix.1, hp]
          rfl
        rw [hi.right_none hr]
        rcases ht.mem_slots h hn hl he with ⟨y, rfl, hy, _⟩
        exact h.low_lt_maxKey hy
    | cons b post' =>
        have hr : (t.node n).rightSibling = some b := by
          rw [hlink.suffix.1, hp]
          rfl
        rw [← (hi.right_some b hr).2.2.2]
        rw [hp] at hafter
        exact (List.pairwise_cons.mp hafter).1 b (List.mem_cons_self ..) e he _
          (List.mem_cons_self ..)

/-! ## Changes -/

theorem starts_congr {l : List Nat} (h : ∀ m ∈ l, g'.low m = g.low m) :
    g'.starts l = g.starts l := by
  refine List.map_congr_left fun m hm => ?_
  rw [h m hm]

theorem above_congr (hroot : t'.root = t.root) (hlevel : g'.level t.root = g.level t.root)
    (hchain : g'.chain (l + 1) = g.chain (l + 1))
    (hslots : ∀ m ∈ g.chain (l + 1), t'.slots g' m = t.slots g m) :
    t'.above g' l = t.above g l := by
  unfold Tree.above
  rw [hroot, hlevel, hchain]
  split
  · rfl
  · exact List.flatMap_congr hslots

theorem slots_congr {m : Nat} (hlow : g'.low m = g.low m) (hnode : t'.node m = t.node m) :
    t'.slots g' m = t.slots g m := by
  unfold Tree.slots
  rw [hlow, hnode]

/-- Writing slots of a leaf. -/
theorem Tiled.writeLeaf (ht : Tiled t g up) (h : Inv c t g) (hn : n < t.count)
    (hw : IsWrite t t' n) (hl : (t.node n).isLeaf = true) : Tiled t' g up := by
  intro l hle
  rw [hw.root] at hle
  have habove : t'.above g l = t.above g l := by
    refine above_congr hw.root rfl rfl fun m hm => slots_congr rfl (hw.frame m ?_)
    rintro rfl
    have hlv := ((h.chain.mem _ m).mp hm).2
    rw [(h.node m hn).leaf_iff.mp hl] at hlv
    omega
  rw [habove, ht l hle]

/-- A split adds the new node to its level. -/
theorem Tiled.starts_split (ht : Tiled t g up) (h : Inv c t g) (hn : n < t.count)
    (hlow : g.low n < s) (hhigh : s < (t.node n).highKey) (owner : Nat → Owner ι) :
    (g.split n t.count s owner).starts ((g.split n t.count s owner).chain (g.level n)) =
      OrderedMap.insertNew s (some t.count) (g.starts (g.chain (g.level n))) := by
  rcases h.chain.around hn with ⟨pre, post, he, hpre, _⟩
  have hs := ht.starts_sorted h (h.node n hn).level_le
  have hord := ht.ordered h (g.level n)
  have hlt : ∀ m ∈ pre ++ n :: post, m ≠ t.count := by
    intro m hm
    rw [← he] at hm
    exact ((h.chain.mem _ m).mp hm).1.ne
  have hlows : ∀ m ∈ pre ++ n :: post, (g.split n t.count s owner).low m = g.low m :=
    fun m hm => Slots.store_of_ne _ _ (hlt m hm)
  have hlowc : (g.split n t.count s owner).low t.count = s := Slots.store_self _ _ _
  rw [g.split_chain_eq t.count s owner he hpre, he]
  rw [he] at hs hord
  have hleft : ∀ e ∈ g.starts (pre ++ [n]), e.1 < s := by
    intro e hmem
    rcases List.mem_map.mp hmem with ⟨m, hm, rfl⟩
    rcases List.mem_append.mp hm with hm | hm
    · rw [Ghost.starts, List.map_append, OrderedMap.sorted_append] at hs
      have := hs.2.2 (g.low m, some m) (List.mem_map.mpr ⟨m, hm, rfl⟩) (g.low n, some n) (by simp)
      show g.low m < s
      omega
    · rw [List.mem_singleton.mp hm]
      exact hlow
  have hright : ∀ e ∈ g.starts post, s ≤ e.1 := by
    intro e hmem
    rcases List.mem_map.mp hmem with ⟨m, hm, rfl⟩
    have := (List.pairwise_cons.mp (List.pairwise_append.mp hord).2.1).1 m hm
    show s ≤ g.low m
    omega
  have hcut : g.starts (pre ++ n :: post) = g.starts (pre ++ [n]) ++ g.starts post := by
    simp [Ghost.starts]
  rw [hcut, OrderedMap.insertNew_eq_of_split hleft hright]
  have hnew : (g.split n t.count s owner).starts (pre ++ n :: t.count :: post) =
      (g.split n t.count s owner).starts (pre ++ [n]) ++ (s, some t.count) ::
        (g.split n t.count s owner).starts post := by
    simp [Ghost.starts, hlowc]
  rw [hnew, starts_congr fun m hm => hlows m ?_, starts_congr fun m hm => hlows m ?_]
  · simp [hm]
  · simp only [List.mem_append, List.mem_singleton] at hm
    simp only [List.mem_append, List.mem_cons]
    tauto

theorem starts_split_of_ne (h : Inv c t g) (hne : l ≠ g.level n) (owner : Nat → Owner ι) :
    (g.split n t.count s owner).starts ((g.split n t.count s owner).chain l) =
      g.starts (g.chain l) := by
  have hchain : (g.split n t.count s owner).chain l = g.chain l := if_neg hne
  rw [hchain]
  exact starts_congr fun m hm => Slots.store_of_ne _ _ ((h.chain.mem l m).mp hm).1.ne

/-- A split leaves the separators alone that lead to another level than the next lower one. -/
theorem above_split (h : Inv c t g) (hs : IsSplit t t' n s) (hne : l + 1 ≠ g.level n)
    (owner : Nat → Owner ι) : t'.above (g.split n t.count s owner) l = t.above g l := by
  have hroot : (g.split n t.count s owner).level t.root = g.level t.root :=
    Slots.store_of_ne _ _ h.root_lt.ne
  refine above_congr hs.root hroot (if_neg hne) fun m hm => ?_
  rcases (h.chain.mem _ m).mp hm with ⟨hmc, hml⟩
  refine slots_congr (Slots.store_of_ne _ _ hmc.ne) (hs.frame m ?_ hmc.ne)
  rintro rfl
  exact hne hml.symm

/-- Splitting a leaf. -/
theorem Tiled.splitLeaf (ht : Tiled t g none) (h : Inv c t g) (hn : n < t.count)
    (hl : (t.node n).isLeaf = true) (hd : LeafDivided c i t g t' n s) :
    Tiled t' (g.leafSplit i n t.count s) (some (t.count, s)) := by
  have hlv := (h.node n hn).leaf_iff.mp hl
  have hlvc : (g.leafSplit i n t.count s).level t.count = g.level n := Slots.store_self _ _ _
  intro l hle
  rw [hd.split.root, hd.evolves.level_eq _ h.root_lt] at hle
  have habove := above_split h hd.split (l := l) (by omega) (Slots.store g.owner s (.pending i))
  rw [Ghost.leafSplit, habove]
  simp only [Ghost.posted]
  by_cases hl0 : l = g.level n
  · rw [if_pos (by rw [hl0]; exact hlvc), hl0, ht.starts_split h hn hd.low_lt hd.lt_highKey,
      ht _ (h.node n hn).level_le]
    rfl
  · rw [if_neg (by intro hc; exact hl0 (hc.symm.trans hlvc)), starts_split_of_ne h hl0, ht l hle]
    rfl

/-! ## Separators that belong to a node -/

/-- Separator key `s` of the pending pair belongs to node `n`, one level above the
separator. -/
structure Belongs (t : Tree) (g : Ghost ι) (n s x : Nat) : Prop where
  lt_count : n < t.count
  level_eq : g.level x + 1 = g.level n
  low_le : g.low n ≤ s
  lt_highKey : s < (t.node n).highKey

theorem Belongs.inner (hb : Belongs t g n s x) (h : Inv c t g) : (t.node n).isLeaf = false := by
  have hlv := hb.level_eq
  exact (h.node n hb.lt_count).inner_of_level_pos (by omega)

theorem Tiled.sorted_posted (ht : Tiled t g (some (x, s))) (h : Inv c t g) (hx : x < t.count) :
    OrderedMap.Sorted (OrderedMap.insertNew s (some x) (t.above g (g.level x))) := by
  have hle := (h.node x hx).level_le
  have hs := ht.starts_sorted h hle
  rw [ht _ hle] at hs
  simpa [Ghost.posted] using hs

/-- The node starts before the pending separator. -/
theorem Tiled.low_lt (ht : Tiled t g (some (x, s))) (h : Inv c t g) (hx : x < t.count)
    (hb : Belongs t g n s x) : g.low n < s := by
  refine lt_of_le_of_ne hb.low_le ?_
  have hmem : (g.low n, (t.node n).first) ∈ t.above g (g.level x) :=
    Tiled.slots_subset h hb.lt_count hb.level_eq.symm (List.mem_cons_self ..)
  exact (ht.sorted_posted h hx).ne_of_insertNew hmem

/-- The pending separator goes to the separators of the node it belongs to. -/
theorem Tiled.insertNew_above (ht : Tiled t g up) (h : Inv c t g) (hb : Belongs t g n s x) :
    ∃ pre post, g.chain (g.level n) = pre ++ n :: post ∧ n ∉ pre ∧ n ∉ post ∧
      OrderedMap.insertNew s (some x) (t.above g (g.level x)) = pre.flatMap (t.slots g) ++
        (OrderedMap.insertNew s (some x) (t.slots g n) ++ post.flatMap (t.slots g)) := by
  have hn := hb.lt_count
  have hle := (h.node n hn).level_le
  have hlv := hb.level_eq
  rcases h.chain.around hn with ⟨pre, post, he, hpre, hpost⟩
  have hord := ht.ordered h (g.level n)
  rw [he] at hord
  rcases List.pairwise_append.mp hord with ⟨_, hafter, hbefore⟩
  have hrange : ∀ m ∈ pre ++ n :: post, ∀ e ∈ t.slots g m,
      g.low m ≤ e.1 ∧ e.1 < (t.node m).highKey := by
    intro m hm e hmem
    rw [← he] at hm
    rcases (h.chain.mem _ m).mp hm with ⟨hmc, hml⟩
    exact ht.slots_range h hmc ((h.node m hmc).inner_of_level_pos (by omega)) hmem
  have hleft : ∀ e ∈ pre.flatMap (t.slots g), e.1 < s := by
    intro e hmem
    rcases List.mem_flatMap.mp hmem with ⟨m, hm, hes⟩
    have h1 := (hrange m (by simp [hm]) e hes).2
    have h2 := hbefore m hm n (by simp)
    have h3 := hb.low_le
    omega
  have hright : ∀ e ∈ post.flatMap (t.slots g), s < e.1 := by
    intro e hmem
    rcases List.mem_flatMap.mp hmem with ⟨m, hm, hes⟩
    have h1 := (hrange m (by simp [hm]) e hes).1
    have h2 := (List.pairwise_cons.mp hafter).1 m hm
    have h3 := hb.lt_highKey
    omega
  refine ⟨pre, post, he, hpre, hpost, ?_⟩
  rw [above_of_lt (by omega), hlv, he, List.flatMap_append, List.flatMap_cons,
    OrderedMap.insertNew_append_right hleft, OrderedMap.insertNew_append_left hright]

theorem insertNew_slots (hlow : g.low n < s) :
    OrderedMap.insertNew s (some x) (t.slots g n) = (g.low n, (t.node n).first) ::
      OrderedMap.insertNew s (some x) (t.node n).seps := by
  simp [Tree.slots, OrderedMap.insertNew, hlow]

theorem posted_of_ne (hne : g.level x ≠ l) (above : List (Nat × Option Nat)) :
    g.posted (some (x, s)) l above = above := if_neg hne

theorem posted_self (g : Ghost ι) (s x : Nat) (above : List (Nat × Option Nat)) :
    g.posted (some (x, s)) (g.level x) above = OrderedMap.insertNew s (some x) above := if_pos rfl

/-- Storing the pending separator in the node it belongs to. -/
theorem Tiled.insert (ht : Tiled t g (some (x, s))) (h : Inv c t g) (hx : x < t.count)
    (hb : Belongs t g n s x) (hins : Inserted t t' n s x) (owner : Nat → Owner ι) :
    Tiled t' { g with owner := owner } none := by
  have hw := hins.write
  have hframe : ∀ m, m ≠ n → t'.slots { g with owner := owner } m = t.slots g m :=
    fun m hm => slots_congr rfl (hw.frame m hm)
  intro l hle
  rw [hw.root] at hle
  have htl := ht l hle
  show g.starts (g.chain l) = t'.above { g with owner := owner } l
  by_cases hl : l = g.level x
  · rcases ht.insertNew_above h hb with ⟨pre, post, he, hpre, hpost, hcut⟩
    have hlv := hb.level_eq
    have htop := (h.node n hb.lt_count).level_le
    have hslots : t'.slots { g with owner := owner } n =
        OrderedMap.insertNew s (some x) (t.slots g n) := by
      rw [insertNew_slots (ht.low_lt h hx hb), Tree.slots, hins.first, hins.seps]
    have habove : t'.above { g with owner := owner } l =
        (g.chain (g.level n)).flatMap (t'.slots { g with owner := owner }) := by
      rw [Tree.above, hw.root, if_neg (by show l ≠ g.level t.root; omega), hl, ← hlv]
    rw [htl, hl, posted_self, hcut, ← hl, habove, he, List.flatMap_append, List.flatMap_cons,
      hslots, List.flatMap_congr fun m hm => hframe m fun heq => hpre (heq ▸ hm),
      List.flatMap_congr fun m hm => hframe m fun heq => hpost (heq ▸ hm)]
  · have habove : t'.above { g with owner := owner } l = t.above g l := by
      refine above_congr hw.root rfl rfl fun m hm => hframe m ?_
      rintro rfl
      have hml := ((h.chain.mem _ m).mp hm).2
      have hlv := hb.level_eq
      omega
    rw [htl, posted_of_ne (Ne.symm hl), habove]

/-- The key that moves up is inside the range of the node that is split. -/
theorem Tiled.up_range {k : Nat} (ht : Tiled t g (some (x, s))) (h : Inv c t g) (hx : x < t.count)
    (hb : Belongs t g n s x) (hd : InnerDivided c t t' n s x k) :
    g.low n < k ∧ k < (t.node n).highKey := by
  have hl := hb.inner h
  have hmem : (k, (t'.node t.count).first) ∈ OrderedMap.insertNew s (some x) (t.node n).seps := by
    rw [hd.cut]
    simp
  rcases OrderedMap.mem_insertNew.mp hmem with heq | hmem
  · obtain ⟨rfl, _⟩ := Prod.mk.inj heq
    exact ⟨ht.low_lt h hx hb, hb.lt_highKey⟩
  · refine ⟨?_, (ht.slots_range h hb.lt_count hl (List.mem_cons_of_mem _ hmem)).2⟩
    have hle := (h.node n hb.lt_count).level_le
    have hlv := hb.level_eq
    have hs := ht.above_sorted h (l := g.level x) (by omega)
    rw [above_of_lt (by omega), hlv] at hs
    have hself := (List.pairwise_flatMap.mp hs).1 n ((h.chain.mem _ n).mpr ⟨hb.lt_count, rfl⟩)
    exact (OrderedMap.sorted_cons.mp hself).1 _ hmem

/-- Splitting the node to which the pending separator belongs. -/
theorem Tiled.split {k : Nat} (ht : Tiled t g (some (x, s))) (h : Inv c t g) (hx : x < t.count)
    (hb : Belongs t g n s x) (hd : InnerDivided c t t' n s x k) (owner : Nat → Owner ι) :
    Tiled t' (g.split n t.count k owner) (some (t.count, k)) := by
  have hs := hd.split
  have hn := hb.lt_count
  have hlv := hb.level_eq
  have htop := (h.node n hn).level_le
  have hlvc : (g.split n t.count k owner).level t.count = g.level n := Slots.store_self _ _ _
  have hroot : (g.split n t.count k owner).level t.root = g.level t.root :=
    Slots.store_of_ne _ _ h.root_lt.ne
  rcases ht.up_range h hx hb hd with ⟨hk1, hk2⟩
  intro l hle
  rw [hs.root, hroot] at hle
  by_cases hln : l = g.level n
  · rw [hln, ht.starts_split h hn hk1 hk2, ht _ htop, posted_of_ne (by omega),
      above_split h hs (by omega), ← hlvc, posted_self]
  · rw [posted_of_ne (by rw [hlvc]; exact Ne.symm hln), starts_split_of_ne h hln, ht l hle]
    by_cases hlx : l = g.level x
    · rcases ht.insertNew_above h hb with ⟨pre, post, he, hpre, hpost, hcut⟩
      have hframe : ∀ m ∈ pre ++ n :: post, m ≠ n →
          t'.slots (g.split n t.count k owner) m = t.slots g m := by
        intro m hm hmn
        rw [← he] at hm
        have hmc := ((h.chain.mem _ m).mp hm).1.ne
        exact slots_congr (Slots.store_of_ne _ _ hmc) (hs.frame m hmn hmc)
      have hslots : t'.slots (g.split n t.count k owner) n ++
          t'.slots (g.split n t.count k owner) t.count =
          OrderedMap.insertNew s (some x) (t.slots g n) := by
        have hlown : (g.split n t.count k owner).low n = g.low n := Slots.store_of_ne _ _ hn.ne
        have hlowc : (g.split n t.count k owner).low t.count = k := Slots.store_self _ _ _
        rw [insertNew_slots (ht.low_lt h hx hb), hd.cut, Tree.slots, Tree.slots, hlown, hlowc,
          hd.first]
        rfl
      have habove : t'.above (g.split n t.count k owner) l = (pre ++ n :: t.count :: post).flatMap
          (t'.slots (g.split n t.count k owner)) := by
        rw [Tree.above, hs.root, hroot, if_neg (by omega), hlx, hlv,
          g.split_chain_eq t.count k owner he hpre]
      rw [habove, hlx, posted_self, hcut, List.flatMap_append, List.flatMap_cons,
        List.flatMap_cons, ← List.append_assoc (t'.slots _ n), hslots,
        List.flatMap_congr fun m hm => hframe m (by simp [hm]) fun heq => hpre (heq ▸ hm),
        List.flatMap_congr fun m hm => hframe m (by simp [hm]) fun heq => hpost (heq ▸ hm)]
    · rw [posted_of_ne (Ne.symm hlx), above_split h hs (by omega)]

/-- Stacking a root on the old one for a separator of the level of the old root. -/
theorem Tiled.newRoot (ht : Tiled t g (some (x, s))) (h : Inv c t g) (hx : x < t.count)
    (hlv : g.level x = g.level t.root) (hr : IsNewRoot t t' t.root x s) :
    Tiled t' (g.newRoot t.root t.count s) none := by
  have hold : ∀ l, l ≠ g.level t.root + 1 →
      (g.newRoot t.root t.count s).starts ((g.newRoot t.root t.count s).chain l) =
        g.starts (g.chain l) := by
    intro l hl
    have hchain : (g.newRoot t.root t.count s).chain l = g.chain l := if_neg hl
    rw [hchain]
    exact starts_congr fun m hm => Slots.store_of_ne _ _ ((h.chain.mem l m).mp hm).1.ne
  have hchain : (g.newRoot t.root t.count s).chain (g.level t.root + 1) = [t.count] := if_pos rfl
  have hlowc : (g.newRoot t.root t.count s).low t.count = 0 := Slots.store_self _ _ _
  have hlevelc : (g.newRoot t.root t.count s).level t.count = g.level t.root + 1 :=
    Slots.store_self _ _ _
  have hpos : 0 < s := by
    have hs := ht.sorted_posted h hx
    rw [hlv, Tree.above, if_pos rfl] at hs
    exact Nat.pos_of_ne_zero (hs.ne_of_insertNew (List.mem_singleton.mpr rfl)).symm
  intro l hle
  rw [hr.root, hlevelc] at hle
  show _ = t'.above (g.newRoot t.root t.count s) l
  rw [Tree.above, hr.root, hlevelc]
  by_cases hl1 : l = g.level t.root + 1
  · rw [if_pos hl1, hl1, hchain, Ghost.starts, List.map_singleton, hlowc]
  · rw [if_neg hl1, hold l hl1, ht l (by omega)]
    by_cases hl2 : l = g.level t.root
    · have habove : t.above g l = [(0, some t.root)] := if_pos hl2
      rw [habove, hl2, ← hlv, posted_self, hlv, hchain, List.flatMap_singleton, Tree.slots, hlowc,
        hr.first, hr.seps]
      simp [OrderedMap.insertNew, hpos]
    · rw [posted_of_ne (by omega), above_of_lt (by omega)]
      have hchain' : (g.newRoot t.root t.count s).chain (l + 1) = g.chain (l + 1) :=
        if_neg (by omega)
      rw [hchain']
      refine (List.flatMap_congr fun m hm => ?_).symm
      have hmc := ((h.chain.mem _ m).mp hm).1.ne
      exact slots_congr (Slots.store_of_ne _ _ hmc) (hr.frame m hmc)

end BLinkTree

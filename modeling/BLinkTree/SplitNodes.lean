import BLinkTree.Operations

/-! # What a split makes of one node

`split_inner_node` and `split_leaf_node` on a full node, apart from any tree around it. An
inner node is read as the alternating list of its separators and keys: the split inserts
the new key and separator at their sorted place and cuts the list at the key that moves
up. A leaf split inserts the binding and cuts between two bindings.
-/

namespace BLinkTree

/-! ## The alternating list -/

/-- One entry of an inner node. -/
inductive Item where
  | separator (s : Option Nat)
  | key (k : Nat)
deriving DecidableEq, Repr

/-- `s_0 k_0 s_1 .. k_{size - 1} s_size`. -/
def Node.items (n : Node) : List Item :=
  (List.range n.size).flatMap (fun i => [.separator (n.separators i), .key (n.keys i)]) ++
    [.separator (n.separators n.size)]

/-- Place a key and the separator on its right in front of the first key that is not below
it. -/
def Item.insert (k : Nat) (s : Nat) : List Item → List Item
  | [] => [.key k, .separator (some s)]
  | .separator s' :: l => .separator s' :: Item.insert k s l
  | .key k' :: l =>
      if k' < k then .key k' :: Item.insert k s l
      else .key k :: .separator (some s) :: .key k' :: l

/-- Keys with the separators on their right. -/
def Item.ofPairs (l : List (Nat × Option Nat)) : List Item :=
  l.flatMap fun e => [.key e.1, .separator e.2]

theorem Item.insert_ofPairs (k s : Nat) (l : List (Nat × Option Nat)) :
    Item.insert k s (ofPairs l) = ofPairs (OrderedMap.insertNew k (some s) l) := by
  induction l with
  | nil => rfl
  | cons e l ih =>
      have hcons : ofPairs (e :: l) = .key e.1 :: .separator e.2 :: ofPairs l := rfl
      rw [hcons, Item.insert, OrderedMap.insertNew]
      split
      · rw [Item.insert, ih]
        rfl
      · rfl

theorem Node.items_eq {n : Node} (hl : n.isLeaf = false) :
    n.items = .separator n.first :: Item.ofPairs n.seps := by
  have hfirst : n.first = n.separators 0 := by simp [first, hl]
  rw [hfirst, seps_of_inner hl, items, Slots.pairs]
  -- one more key moves the last separator one slot on
  induction n.size with
  | zero => rfl
  | succ m ih =>
      rw [List.range_succ, List.flatMap_append, List.append_assoc, List.map_append, Item.ofPairs,
        List.flatMap_append]
      have hstep := congrArg (· ++ [Item.key (n.keys m), .separator (n.separators (m + 1))]) ih
      simpa [Item.ofPairs] using hstep

theorem Item.insert_items {n : Node} (hl : n.isLeaf = false) (k s : Nat) :
    Item.insert k s n.items =
      .separator n.first :: ofPairs (OrderedMap.insertNew k (some s) n.seps) := by
  rw [Node.items_eq hl, Item.insert, insert_ofPairs]

variable {c : Capacity} {t : Tree} {n : Nat}

/-! ## The inner split -/

/-- The key that moves up lies between the keys of the two halves. -/
theorem InnerCut.keys_apart {inner : Node} {x : Nat} {l : List (Nat × Option Nat)}
    {r : Node × Node × Nat} (h : Node.InnerCut c inner x l r) (hs : OrderedMap.Sorted l) :
    (∀ k ∈ r.1.liveKeys, k < r.2.2) ∧ ∀ k ∈ r.2.1.liveKeys, r.2.2 < k := by
  rw [h.cut] at hs
  rcases OrderedMap.sorted_append.mp hs with ⟨_, hright, hcross⟩
  rw [Node.liveKeys_of_inner h.left_isLeaf, Node.liveKeys_of_inner h.new_isLeaf]
  constructor
  · intro k hk
    rcases List.mem_map.mp hk with ⟨e, he, rfl⟩
    exact hcross e he _ List.mem_cons_self
  · intro k hk
    rcases List.mem_map.mp hk with ⟨e, he, rfl⟩
    exact (OrderedMap.sorted_cons.mp hright).1 e he

/-- The separators that stay in the old node keep it as their parent. -/
theorem innerParent_of_left {s x y : Nat} (hcut : Node.InnerShape c (t.node n) x (t.innerHalves c n s x))
    (hp : ∀ z, some z ∈ some x :: (t.node n).children → z < t.count ∧ t.parent z = some n)
    (hy : some y ∈ (t.innerLeft c n s x).children) : t.innerParent c n s x y = some n := by
  have hmem : some y ∈ some x :: (t.node n).children :=
    hcut.children.mem_iff.mp (List.mem_append_left _ hy)
  rcases hp y hmem with ⟨hyc, hyp⟩
  have hold : Slots.store t.parent t.count (t.parent n) y = some n := by
    rw [Slots.store_of_ne _ _ hyc.ne, hyp]
  unfold Tree.innerParent
  split
  · by_cases hyx : y = x
    · rw [hyx, Slots.store_self]
    · rw [Slots.store_of_ne _ _ hyx, hold]
  · exact hold

/-- `split_inner_node` inserts and then cuts in the middle, in each of its three branches.
A child that both halves hold (the caller passes no such node) gets the new node. -/
theorem splitInnerNode_inserts_then_cuts (c : Capacity) (t : Tree) (n key separator : Nat)
    (hn : n < t.count) (hl : (t.node n).isLeaf = false) (hfull : (t.node n).size = c.maxKeys)
    (hs : (t.node n).liveKeys.Pairwise (· < ·)) (hnull : none ∉ (t.node n).children)
    (hkey : key ∉ (t.node n).liveKeys) :
    ∃ t' keyUp, t.splitInnerNode c n key separator = some (t', t.count, keyUp) ∧
      Item.insert key separator (t.node n).items =
        (t'.node n).items ++ [.key keyUp] ++ (t'.node t.count).items ∧
      (t'.node n).size = c.maxKeys / 2 ∧
      (t'.node t.count).size = c.maxKeys - c.maxKeys / 2 ∧
      (∀ k ∈ (t'.node n).liveKeys, k < keyUp) ∧
      (∀ k ∈ (t'.node t.count).liveKeys, keyUp < k) ∧
      (t'.node n).highKey = keyUp ∧ (t'.node t.count).highKey = (t.node n).highKey ∧
      (t'.node n).rightSibling = some t.count ∧
      (t'.node t.count).rightSibling = (t.node n).rightSibling ∧
      ((∀ y, some y ∈ some separator :: (t.node n).children →
          y < t.count ∧ t.parent y = some n) →
        (∀ y, some y ∈ (t'.node t.count).children → t'.parent y = some t.count) ∧
        ∀ y, some y ∈ (t'.node n).children → some y ∉ (t'.node t.count).children →
          t'.parent y = some n) := by
  have hw : (t.node n).WellFormed c := ⟨by simp [Node.capacity, hl, hfull], hs⟩
  have hcut := innerHalves_spec separator hl hw hfull hkey
  have hsorted : OrderedMap.Sorted
      (OrderedMap.insertNew key (some separator) (t.node n).seps) := by
    rw [Node.liveKeys_of_inner hl] at hs hkey
    exact OrderedMap.Sorted.insertNew (List.pairwise_map.mp hs) hkey
  have hsome : ∀ y ∈ (t.innerRight c n key separator).children, y ≠ none := by
    rintro y hy rfl
    have hmem := hcut.children.mem_iff.mp (List.mem_append_right _ hy)
    rcases List.mem_cons.mp hmem with he | hmem
    · exact Option.some_ne_none _ he.symm
    · exact hnull hmem
  rcases splitInnerNode_spec hn hl hcut.toInnerShape hsome with
    ⟨t', hrun, hsplit, hleft, hnew, -, hparent⟩
  rcases InnerCut.keys_apart hcut hsorted with ⟨hlt, hgt⟩
  refine ⟨t', (t.innerHalves c n key separator).2.2, hrun, ?_, ?_, ?_, ?_, ?_, hsplit.left_highKey,
    hsplit.new_highKey, hsplit.left_right, hsplit.new_right, fun hp => ⟨?_, ?_⟩⟩
  · have hl1 : (t'.node n).isLeaf = false := hsplit.left_isLeaf.trans hl
    have hl2 : (t'.node t.count).isLeaf = false := hsplit.new_isLeaf.trans hl
    have hseps1 : (t'.node n).seps = (t.innerHalves c n key separator).1.seps := by
      rw [hleft]
      rfl
    have hseps2 : (t'.node t.count).seps = (t.innerHalves c n key separator).2.1.seps := by
      rw [hnew]
      rfl
    have hfirst1 : (t'.node n).first = (t.node n).first := by
      rw [hleft]
      exact hcut.left_first
    have hfirst2 : (t'.node t.count).first = (t.innerHalves c n key separator).2.1.first := by
      rw [hnew]
      rfl
    rw [Item.insert_items hl, hcut.cut, Node.items_eq hl1, Node.items_eq hl2, hseps1, hseps2,
      hfirst1, hfirst2]
    simp [Item.ofPairs]
  · rw [hleft]
    exact hcut.left_size
  · rw [hnew]
    exact hcut.new_size
  · rw [hleft]
    exact hlt
  · rw [hnew]
    exact hgt
  · intro y hy
    rw [hnew] at hy
    rw [hparent, if_pos hy]
  · intro y hy hy'
    rw [hleft] at hy
    rw [hnew] at hy'
    rw [hparent, if_neg hy']
    exact innerParent_of_left hcut.toInnerShape hp hy

/-- Inner node `0` with keys `10` and `20` over the leaves `1`, `2`, `3`. -/
def fullInner : Tree where
  node := fun i => ⟨⟨fun j => 10 * (j + 1), fun _ => 0, fun j => some (j + 1)⟩, i ≠ 0, maxKey, none, 2⟩
  parent := fun _ => some 0
  count := 5
  root := 0
  height := 2

/-- The new key becomes the key that moves up, the new leaf the first child of the new
node. -/
theorem splitInnerNode_inserts_then_cuts_middle :
    ∃ t' keyUp, fullInner.splitInnerNode .smallest 0 15 4 = some (t', 5, keyUp) ∧
      (t'.node 0).items ++ [.key keyUp] ++ (t'.node 5).items =
        [.separator (some 1), .key 10, .separator (some 2), .key 15, .separator (some 4), .key 20,
          .separator (some 3)] := by
  have hchildren : (fullInner.node 0).children = [some 1, some 2, some 3] := rfl
  have hkeys : (fullInner.node 0).liveKeys = [10, 20] := rfl
  rcases splitInnerNode_inserts_then_cuts .smallest fullInner 0 15 4 (by decide) rfl rfl
    (by rw [hkeys]; decide) (by rw [hchildren]; decide) (by rw [hkeys]; decide)
    with ⟨t', keyUp, hrun, hitems, -⟩
  exact ⟨t', keyUp, hrun, hitems.symm⟩

/-! ## The leaf split -/

/-- `split_leaf_node` keeps every binding, orders them over the two leaves and hands the
first key of the new leaf up. -/
theorem splitLeafNode_orders_entries (c : Capacity) (t : Tree) (n key low : Nat) (value : Value)
    (hn : n < t.count) (hl : (t.node n).isLeaf = true) (hfull : (t.node n).size = c.maxItems)
    (hs : (t.node n).liveKeys.Pairwise (· < ·))
    (hrange : ∀ k ∈ (t.node n).liveKeys, low ≤ k ∧ k < (t.node n).highKey)
    (hlow : low ≤ key) (hhigh : key < (t.node n).highKey) (hkey : key ∉ (t.node n).liveKeys) :
    ∃ t', t.splitLeafNode c n key value = (t', t.count) ∧
      t.insertIntoLeaf c n key value = (t', some (t.count, (t'.node t.count).keys 0)) ∧
      OrderedMap.Sorted ((t'.node n).entries ++ (t'.node t.count).entries) ∧
      (t'.node n).entries ++ (t'.node t.count).entries =
        OrderedMap.insertNew key value (t.node n).entries ∧
      (t'.node n).highKey = (t'.node t.count).keys 0 ∧
      (∀ k ∈ (t'.node n).liveKeys, k < (t'.node n).highKey) ∧ low < (t'.node n).highKey ∧
      (c.maxItems / 2 ≤ (t'.node n).size ∧ (t'.node n).size ≤ c.maxItems) ∧
      (c.maxItems / 2 ≤ (t'.node t.count).size ∧ (t'.node t.count).size ≤ c.maxItems) ∧
      (t'.node t.count).highKey = (t.node n).highKey ∧
      (t'.node t.count).rightSibling = (t.node n).rightSibling ∧
      (t'.node n).rightSibling = some t.count := by
  have hw : (t.node n).WellFormed c := ⟨by simp [Node.capacity, hl, hfull], hs⟩
  have hcut := leafHalves_spec value hl hw hfull hkey
  have hsplit := splitLeafNode_isSplit (c := c) key value hn hl
  have hleft := splitLeafNode_left (c := c) hn key value
  have hnew := splitLeafNode_new (c := c) t n key value
  have hsorted : OrderedMap.Sorted (OrderedMap.insertNew key value (t.node n).entries) := by
    rw [Node.liveKeys_of_leaf hl] at hs hkey
    exact OrderedMap.Sorted.insertNew (List.pairwise_map.mp hs) hkey
  have hin : ∀ e ∈ OrderedMap.insertNew key value (t.node n).entries,
      low ≤ e.1 ∧ e.1 < (t.node n).highKey := by
    intro e he
    rcases OrderedMap.mem_insertNew.mp he with rfl | he
    · exact ⟨hlow, hhigh⟩
    · apply hrange
      rw [Node.liveKeys_of_leaf hl]
      exact List.mem_map.mpr ⟨e, he, rfl⟩
  rcases LeafCut.ranges hcut hsorted hin with ⟨hup, -, hbelow, -⟩
  have hentries : ((t.splitLeafNode c n key value).1.node n).entries ++
      ((t.splitLeafNode c n key value).1.node t.count).entries =
        OrderedMap.insertNew key value (t.node n).entries := by
    rw [hnew, hleft, hcut.cut]
    rfl
  refine ⟨(t.splitLeafNode c n key value).1, rfl, ?_, ?_, hentries, ?_, ?_, ?_, ?_, ?_,
    hsplit.new_highKey, hsplit.new_right, hsplit.left_right⟩
  · -- the key is absent and the leaf is full
    have habsent := (Node.mem_liveKeys_iff hw.monotone key).not.mp hkey
    have hisFull : (t.node n).isFull c = true := by simp [Node.isFull, Node.capacity, hl, hfull]
    rcases insertIntoLeaf_cases c t n key value with ⟨hk, _⟩ | ⟨_, hf, _⟩ | ⟨_, _, he⟩
    · exact absurd hk habsent
    · rw [hisFull] at hf
      cases hf
    · exact he
  · rw [hentries]
    exact hsorted
  · rw [hsplit.left_highKey, hnew]
  · intro k hk
    rw [hsplit.left_highKey]
    rw [Node.liveKeys_of_leaf (hsplit.left_isLeaf.trans hl), hleft] at hk
    rcases List.mem_map.mp hk with ⟨e, he, rfl⟩
    exact (hbelow e he).2
  · rw [hsplit.left_highKey]
    exact hup
  · rw [hleft]
    exact hcut.left_size
  · rw [hnew]
    exact hcut.new_size

/-- A full leaf with the keys `10` and `20` that receives `15`. -/
theorem splitLeafNode_orders_entries_between :
    let t : Tree := ⟨fun _ => ⟨⟨fun j => 10 * (j + 1), fun j => j, fun _ => none⟩, true, maxKey, none, 2⟩,
      fun _ => none, 1, 0, 1⟩
    ∃ t', t.splitLeafNode .smallest 0 15 7 = (t', 1) ∧
      (t'.node 0).entries ++ (t'.node 1).entries = [(10, 0), (15, 7), (20, 1)] := by
  intro t
  have hkeys : (t.node 0).liveKeys = [10, 20] := rfl
  rcases splitLeafNode_orders_entries .smallest t 0 15 5 7 (by decide) rfl rfl
    (by rw [hkeys]; decide) (by rw [hkeys]; decide) (by decide) (by decide) (by rw [hkeys]; decide)
    with ⟨t', hrun, _, _, hentries, _⟩
  exact ⟨t', hrun, hentries⟩

end BLinkTree

import BLinkTree.Content

/-! # The operations under the search invariant

One specification for each operation that the implementations share: what it leaves
of the invariant, what it does to the content, and what it hands on to the level
above. Callers use these and do not look into the operations again.
-/

namespace BLinkTree

variable {ι : Type} {c : Capacity} {t : Tree} {g : Ghost ι} {n : Nat}

/-! ## The initial tree -/

/-- The proof state of the tree with one empty leaf. -/
def Ghost.initial (ι : Type) : Ghost ι where
  low := fun _ => 0
  level := fun _ => 0
  chain := fun l => if l = 0 then [0] else []
  owner := fun _ => .free

theorem inv_empty (c : Capacity) (memory : Nat → Memory) :
    Inv c (Tree.empty memory) (Ghost.initial ι) := by
  refine ⟨?_, ⟨?_, ?_, ?_, ?_⟩, Nat.one_pos, rfl, Nat.one_pos⟩
  · intro n _
    refine ⟨⟨Nat.zero_le _, List.Pairwise.nil⟩, by simp [Tree.empty, Node.create, Ghost.initial],
      le_rfl, fun _ => rfl, ?_, ?_, fun _ _ _ _ => rfl, ?_, ?_⟩
    · exact fun r hr => absurd hr (by simp [Tree.empty, Node.create])
    · refine fun _ => ⟨by simp [Ghost.initial, Tree.empty, Node.create, maxKey], ?_⟩
      intro e he
      simp [Tree.empty, Node.create, Node.entries] at he
    · exact fun hf => absurd hf (by simp [Tree.empty, Node.create])
    · intro e he
      simp [Tree.empty, Node.create, Node.seps] at he
  · intro l m
    simp only [Ghost.initial, Tree.empty]
    split <;> simp <;> omega
  · intro l
    simp only [Ghost.initial]
    split <;> simp
  · intro l
    simp only [Ghost.initial]
    split
    · exact ⟨rfl, trivial⟩
    · trivial
  · exact fun _ _ _ => rfl

theorem content_empty (memory : Nat → Memory) : (Tree.empty memory).content = [] := by
  rw [(inv_empty (ι := Unit) .smallest memory).content_eq]
  simp [Tree.entriesOf, Ghost.initial, Tree.empty, Node.create, Node.entries]

/-! ## Reading the changes off the operations -/

@[simp] theorem setNode_node_self (t : Tree) (i : Nat) (n : Node) : (t.setNode i n).node i = n :=
  Slots.store_self _ _ _

theorem setNode_node (t : Tree) (n : Nat) : t.setNode n (t.node n) = t := by
  simp only [Tree.setNode, Slots.store_eq_self]

theorem setNode_node_of_ne (t : Tree) {i m : Nat} (n : Node) (h : m ≠ i) :
    (t.setNode i n).node m = t.node m := Slots.store_of_ne _ _ h

theorem isWrite_setNode {n' : Node} (h1 : n'.isLeaf = (t.node n).isLeaf)
    (h2 : n'.highKey = (t.node n).highKey) (h3 : n'.rightSibling = (t.node n).rightSibling) :
    IsWrite t (t.setNode n n') n :=
  ⟨rfl, rfl, by rw [setNode_node_self, h1], by rw [setNode_node_self, h2],
    by rw [setNode_node_self, h3], fun _ hm => setNode_node_of_ne t n' hm⟩

theorem Node.updateValue_eq (c : Capacity) (n : Node) (k : Nat) (v : Value) :
    ∃ values, n.updateValue c k v = { n with values := values } := by
  unfold Node.updateValue
  split
  · exact ⟨_, rfl⟩
  · exact ⟨_, rfl⟩

theorem isWrite_updateValue (c : Capacity) (t : Tree) (n k : Nat) (v : Value) :
    IsWrite t (t.setNode n ((t.node n).updateValue c k v)) n := by
  obtain ⟨values, hu⟩ := Node.updateValue_eq c (t.node n) k v
  rw [hu]
  exact isWrite_setNode rfl rfl rfl

/-- Setting parents changes nothing else. -/
theorem setParents_spec {p : Nat} {l : List (Option Nat)} (t : Tree)
    (h : ∀ s ∈ l, s ≠ none) :
    ∃ parent, t.setParents p l = some { t with parent := parent } ∧
      ∀ m, parent m = if some m ∈ l then some p else t.parent m := by
  induction l generalizing t with
  | nil => exact ⟨t.parent, rfl, by simp⟩
  | cons s l ih =>
      cases s with
      | none => exact absurd rfl (h none (by simp))
      | some s =>
          obtain ⟨parent, h1, h2⟩ := ih (t.setParent s (some p)) fun s' hs' => h s' (by simp [hs'])
          refine ⟨parent, h1, fun m => ?_⟩
          rw [h2 m]
          by_cases hm : some m ∈ l
          · simp [hm]
          · by_cases hms : m = s
            · simp [hms, Tree.setParent]
            · simp [hm, hms, Tree.setParent, Slots.store]

/-- The two nodes that `split_leaf_node` computes, before the sibling link is set. -/
def Tree.leafHalves (c : Capacity) (t : Tree) (n k : Nat) (v : Value) : Node × Node :=
  (t.node n).splitLeaf c (Node.create true (t.node t.count).toMemory) k v

theorem splitLeafNode_eq (t : Tree) (n k : Nat) (v : Value) :
    t.splitLeafNode c n k v =
      (((t.createNode true (t.parent n)).setNode n { (t.leafHalves c n k v).1 with
          rightSibling := some t.count, highKey := (t.leafHalves c n k v).2.keys 0 }).setNode
        t.count (t.leafHalves c n k v).2, t.count) := by
  simp only [Tree.splitLeafNode, Tree.leafHalves, Tree.createNode, Slots.store_self]

theorem splitLeafNode_left (hn : n < t.count) (k : Nat) (v : Value) :
    (t.splitLeafNode c n k v).1.node n = { (t.leafHalves c n k v).1 with
      rightSibling := some t.count, highKey := (t.leafHalves c n k v).2.keys 0 } := by
  rw [splitLeafNode_eq, setNode_node_of_ne _ _ hn.ne, setNode_node_self]

theorem splitLeafNode_new (t : Tree) (n k : Nat) (v : Value) :
    (t.splitLeafNode c n k v).1.node t.count = (t.leafHalves c n k v).2 := by
  rw [splitLeafNode_eq, setNode_node_self]

/-- The three branches of `insert_into_leaf`. -/
theorem insertIntoLeaf_cases (c : Capacity) (t : Tree) (n k : Nat) (v : Value) :
    ((t.node n).index k < (t.node n).size ∧ (t.node n).keys ((t.node n).index k) = k) ∧
        t.insertIntoLeaf c n k v = (t, none) ∨
      ¬ ((t.node n).index k < (t.node n).size ∧ (t.node n).keys ((t.node n).index k) = k) ∧
        (t.node n).isFull c = false ∧ t.insertIntoLeaf c n k v =
          (t.setNode n ((t.node n).insertValue ((t.node n).index k) v k), none) ∨
      ¬ ((t.node n).index k < (t.node n).size ∧ (t.node n).keys ((t.node n).index k) = k) ∧
        (t.node n).isFull c = true ∧ t.insertIntoLeaf c n k v =
          ((t.splitLeafNode c n k v).1,
            some (t.count, ((t.splitLeafNode c n k v).1.node t.count).keys 0)) := by
  by_cases hk : (t.node n).index k < (t.node n).size ∧ (t.node n).keys ((t.node n).index k) = k
  · exact Or.inl ⟨hk, if_pos hk⟩
  · refine Or.inr ?_
    cases hf : (t.node n).isFull c with
    | false => exact Or.inl ⟨hk, rfl, (if_neg hk).trans (if_pos hf)⟩
    | true => exact Or.inr ⟨hk, rfl, (if_neg hk).trans (if_neg (by rw [hf]; decide))⟩

theorem insertIntoLeaf_frame {m k : Nat} {v : Value} (hm : m < t.count) (hmn : m ≠ n) :
    (t.insertIntoLeaf c n k v).1.node m = t.node m := by
  rcases insertIntoLeaf_cases c t n k v with ⟨_, hx⟩ | ⟨_, _, hx⟩ | ⟨_, _, hx⟩
  · rw [hx]
  · rw [hx, setNode_node_of_ne _ _ hmn]
  · rw [hx, splitLeafNode_eq, setNode_node_of_ne _ _ hm.ne, setNode_node_of_ne _ _ hmn]
    exact Slots.store_of_ne _ _ hm.ne

theorem leafHalves_spec {k : Nat} (v : Value) (hl : (t.node n).isLeaf = true)
    (hw : (t.node n).WellFormed c) (hfull : (t.node n).size = c.maxItems)
    (hk : k ∉ (t.node n).liveKeys) :
    Node.LeafCut c (t.node n) (OrderedMap.insertNew k v (t.node n).entries)
      (t.leafHalves c n k v) :=
  Node.splitLeaf_spec hl hw hfull rfl hk

theorem leafHalves_shape (k : Nat) (v : Value) (hl : (t.node n).isLeaf = true) :
    Node.LeafShape (t.node n) (t.leafHalves c n k v) :=
  Node.splitLeaf_shape k v hl rfl

theorem splitLeafNode_isSplit (k : Nat) (v : Value) (hn : n < t.count)
    (hl : (t.node n).isLeaf = true) :
    IsSplit t (t.splitLeafNode c n k v).1 n ((t.leafHalves c n k v).2.keys 0) := by
  have hcut := leafHalves_shape (c := c) k v hl
  have hleft := splitLeafNode_left (c := c) hn k v
  have hnew := splitLeafNode_new (c := c) t n k v
  refine ⟨rfl, rfl, ?_, ?_, ?_, ?_, ?_, ?_, ?_⟩
  · rw [hleft, hl]
    exact hcut.left_isLeaf
  · rw [hleft]
  · rw [hleft]
  · rw [hnew, hl]
    exact hcut.new_isLeaf
  · rw [hnew]
    exact hcut.new_highKey
  · rw [hnew]
    exact hcut.new_right
  · intro m h1 h2
    rw [splitLeafNode_eq, setNode_node_of_ne _ _ h2, setNode_node_of_ne _ _ h1]
    exact Slots.store_of_ne _ _ h2

/-- The two nodes that `split_inner_node` computes, before the sibling links are set. -/
def Tree.innerHalves (c : Capacity) (t : Tree) (n s x : Nat) : Node × Node × Nat :=
  (t.node n).splitInner c (Node.create false (t.node t.count).toMemory) s x

theorem innerHalves_spec {s : Nat} (x : Nat) (hl : (t.node n).isLeaf = false)
    (hw : (t.node n).WellFormed c) (hfull : (t.node n).size = c.maxKeys)
    (hs : s ∉ (t.node n).liveKeys) :
    Node.InnerCut c (t.node n) x (OrderedMap.insertNew s (some x) (t.node n).seps)
      (t.innerHalves c n s x) :=
  Node.splitInner_spec hl hw hfull rfl hs

theorem innerHalves_shape (s x : Nat) (hl : (t.node n).isLeaf = false)
    (hfull : (t.node n).size = c.maxKeys) :
    Node.InnerShape c (t.node n) x (t.innerHalves c n s x) :=
  Node.splitInner_shape hl hfull rfl

/-- The two nodes that `split_inner_node` leaves. -/
def Tree.innerLeft (c : Capacity) (t : Tree) (n s x : Nat) : Node :=
  { (t.innerHalves c n s x).1 with
    rightSibling := some t.count, highKey := (t.innerHalves c n s x).2.2 }

def Tree.innerRight (c : Capacity) (t : Tree) (n s x : Nat) : Node :=
  { (t.innerHalves c n s x).2.1 with rightSibling := (t.innerHalves c n s x).1.rightSibling }

/-- The parent of the separator in the tree that `split_inner_node` leaves, before the
loop over the new node. -/
def Tree.innerParent (c : Capacity) (t : Tree) (n s x : Nat) : Nat → Option Nat :=
  if s < (t.node n).keys (c.maxKeys / 2 - 1) then
    Slots.store (Slots.store t.parent t.count (t.parent n)) x (some n)
  else Slots.store t.parent t.count (t.parent n)

/-- The tree that `split_inner_node` leaves, before the loop over the new node. -/
def Tree.innerBase (c : Capacity) (t : Tree) (n s x : Nat) : Tree :=
  { t with
    node := Slots.store (Slots.store (Slots.store t.node t.count
      (Node.create false (t.node t.count).toMemory)) n (t.innerLeft c n s x)) t.count
      (t.innerRight c n s x)
    parent := t.innerParent c n s x
    count := t.count + 1 }

theorem splitInnerNode_eq (t : Tree) (n s x : Nat) :
    t.splitInnerNode c n s x =
      ((t.innerBase c n s x).setParents t.count (t.innerRight c n s x).children).map
        fun t' => (t', t.count, (t.innerHalves c n s x).2.2) := by
  simp only [Tree.splitInnerNode, Tree.innerHalves, Tree.createNode, Slots.store_self,
    Tree.innerBase, Tree.innerParent]
  split <;> rfl

theorem setParents_eq {p : Nat} {l : List (Option Nat)} {t t' : Tree}
    (h : t.setParents p l = some t') : ∃ parent, t' = { t with parent := parent } := by
  induction l generalizing t with
  | nil =>
      rw [Tree.setParents, Option.some.injEq] at h
      exact ⟨t.parent, h.symm⟩
  | cons s l ih =>
      cases s with
      | none => simp [Tree.setParents] at h
      | some s =>
          rcases ih h with ⟨parent, he⟩
          exact ⟨parent, he⟩

theorem setParents_node {p : Nat} {l : List (Option Nat)} {t t' : Tree}
    (h : t.setParents p l = some t') : t'.node = t.node := by
  rcases setParents_eq h with ⟨parent, rfl⟩
  rfl

/-- `split_inner_node` creates one node and changes no other one. -/
theorem splitInnerNode_frame {s x : Nat} {r : Tree × Nat × Nat}
    (h : t.splitInnerNode c n s x = some r) :
    r.1.count = t.count + 1 ∧ ∀ m < t.count, m ≠ n → r.1.node m = t.node m := by
  rw [splitInnerNode_eq, Option.map_eq_some_iff] at h
  rcases h with ⟨t1, hset, rfl⟩
  rcases setParents_eq hset with ⟨parent, rfl⟩
  exact ⟨rfl, fun m hm hmn => by simp [Tree.innerBase, Slots.store, hm.ne, hmn]⟩

/-- `insert_into_inner` changes no other node. -/
theorem insertIntoInner_frame {t' : Tree} {s x m : Nat} {up : Option (Nat × Nat)}
    (h : t.insertIntoInner c n s x = some (t', up)) (hm : m < t.count) (hmn : m ≠ n) :
    t'.node m = t.node m := by
  simp only [Tree.insertIntoInner] at h
  split at h
  · simp only [Option.some.injEq, Prod.mk.injEq] at h
    rw [← h.1]
    exact setNode_node_of_ne t _ hmn
  · rw [Option.map_eq_some_iff] at h
    rcases h with ⟨r, hsplit, heq⟩
    simp only [Prod.mk.injEq] at heq
    rw [← heq.1]
    exact (splitInnerNode_frame hsplit).2 m hm hmn

/-- `split_inner_node` splits the node; only null separators could stop it. -/
theorem splitInnerNode_spec {s x : Nat} (hn : n < t.count) (hl : (t.node n).isLeaf = false)
    (hcut : Node.InnerShape c (t.node n) x (t.innerHalves c n s x))
    (hsome : ∀ y ∈ (t.innerRight c n s x).children, y ≠ none) :
    ∃ t', t.splitInnerNode c n s x = some (t', t.count, (t.innerHalves c n s x).2.2) ∧
      IsSplit t t' n (t.innerHalves c n s x).2.2 ∧ t'.node n = t.innerLeft c n s x ∧
      t'.node t.count = t.innerRight c n s x ∧ t'.height = t.height ∧
      ∀ m, t'.parent m = if some m ∈ (t.innerRight c n s x).children then some t.count
        else t.innerParent c n s x m := by
  obtain ⟨parent, h1, h2⟩ := setParents_spec (p := t.count) (t.innerBase c n s x) hsome
  have hleft : (t.innerBase c n s x).node n = t.innerLeft c n s x := by
    simp [Tree.innerBase, Slots.store, hn.ne]
  have hnew : (t.innerBase c n s x).node t.count = t.innerRight c n s x := Slots.store_self _ _ _
  refine ⟨{ t.innerBase c n s x with parent := parent }, ?_, ⟨rfl, rfl, ?_, ?_, ?_, ?_, ?_, ?_, ?_⟩,
    hleft, hnew, rfl, h2⟩
  · rw [splitInnerNode_eq, h1]
    rfl
  · show ((t.innerBase c n s x).node n).isLeaf = _
    rw [hleft, hl]
    exact hcut.left_isLeaf
  · show ((t.innerBase c n s x).node n).highKey = _
    rw [hleft]
    rfl
  · show ((t.innerBase c n s x).node n).rightSibling = _
    rw [hleft]
    rfl
  · show ((t.innerBase c n s x).node t.count).isLeaf = _
    rw [hnew, hl]
    exact hcut.new_isLeaf
  · show ((t.innerBase c n s x).node t.count).highKey = _
    rw [hnew]
    exact hcut.new_highKey
  · show ((t.innerBase c n s x).node t.count).rightSibling = _
    rw [hnew]
    exact hcut.left_right
  · intro m h1 h2
    show (t.innerBase c n s x).node m = _
    simp [Tree.innerBase, Slots.store, h1, h2]

theorem createNewRoot_node (t : Tree) (left right key : Nat) :
    (t.createNewRoot left right key).node t.count =
      ((Node.create false (t.node t.count).toMemory).setSeparator 0 (some left)).insertSeparator
        0 right key := by
  simp [Tree.createNewRoot, Tree.setNode, Tree.createNode, Tree.setParent]

theorem createNewRoot_parent (t : Tree) (x s m : Nat) :
    (t.createNewRoot t.root x s).parent m = if m = x ∨ m = t.root then some t.count
      else if m = t.count then none else t.parent m := by
  simp only [Tree.createNewRoot, Tree.setNode, Tree.createNode, Tree.setParent, Slots.store]
  by_cases h1 : m = x <;> by_cases h2 : m = t.root <;> simp [h1, h2]

theorem createNewRoot_isNewRoot (t : Tree) (left right key : Nat) :
    IsNewRoot t (t.createNewRoot left right key) left right key := by
  have hnode := createNewRoot_node t left right key
  refine ⟨rfl, rfl, ?_, ?_, ?_, ?_, ?_, ?_, ?_⟩
  · rw [hnode]
    rfl
  · rw [hnode]
    rfl
  · rw [hnode]
    rfl
  · rw [hnode]
    rfl
  · rw [hnode, Node.first_insertSeparator]
    simp [Node.first, Node.setSeparator, Node.create]
  · rw [hnode]
    simp [Node.seps, Node.insertSeparator, Node.setSeparator, Node.create, Slots.pairs]
  · intro m hm
    simp only [Tree.createNewRoot, Tree.setNode, Tree.createNode, Tree.setParent,
      Slots.store_of_ne _ _ hm]

/-! ## Leaf sections -/

/-- The pair `up` that operation `i` hands on from level `l`. -/
def Posts (t : Tree) (g : Ghost ι) (i : ι) (l : Nat) : Option (Nat × Nat) → Prop
  | none => True
  | some (x, s) => Pending t g i s x ∧ g.level x = l

/-- A full leaf has `max_items` bindings. -/
theorem NodeInv.size_eq_of_full (h : NodeInv c t g n) (hf : (t.node n).isFull c = true) :
    (t.node n).size = (t.node n).capacity c :=
  le_antisymm h.wellFormed.size_le (of_decide_eq_true hf)

theorem Node.WellFormed.insertValue {n : Node} (h : n.WellFormed c) (hl : n.isLeaf = true)
    (hf : n.isFull c = false) {k : Nat} (hk : k ∉ n.liveKeys) (v : Value) :
    (n.insertValue (n.index k) v k).WellFormed c := by
  have hlt : n.size < n.capacity c := not_le.mp (of_decide_eq_false hf)
  refine ⟨hlt, ?_⟩
  have hs := h.sorted
  rw [Node.liveKeys_of_leaf hl] at hs hk
  have hl' : (n.insertValue (n.index k) v k).isLeaf = true := hl
  rw [Node.liveKeys_of_leaf hl', Node.entries_insertValue hl h.monotone]
  exact List.pairwise_map.mpr (OrderedMap.Sorted.insertNew (List.pairwise_map.mp hs) hk)

theorem Node.WellFormed.insertSeparator {n : Node} (h : n.WellFormed c) (hl : n.isLeaf = false)
    (hf : n.isFull c = false) {s : Nat} (hs : s ∉ n.liveKeys) (x : Nat) :
    (n.insertSeparator (n.index s) x s).WellFormed c := by
  have hlt : n.size < n.capacity c := not_le.mp (of_decide_eq_false hf)
  refine ⟨hlt, ?_⟩
  have hsorted := h.sorted
  rw [Node.liveKeys_of_inner hl] at hsorted hs
  have hl' : (n.insertSeparator (n.index s) x s).isLeaf = false := hl
  rw [Node.liveKeys_of_inner hl', Node.seps_insertSeparator hl h.monotone]
  exact List.pairwise_map.mpr (OrderedMap.Sorted.insertNew (List.pairwise_map.mp hsorted) hs)

/-- The first binding of a leaf that is not empty. -/
theorem Node.entries_head {n : Node} (hl : n.isLeaf = true) (hs : 0 < n.size) :
    (n.keys 0, n.values 0) ∈ n.entries := by
  rw [Node.entries_of_leaf hl]
  exact Slots.mem_pairs.mpr ⟨0, hs, rfl⟩

/-- The two halves of a split leaf lie on both sides of the first key of the new leaf. -/
theorem LeafCut.ranges {leaf : Node} {l : List (Nat × Value)} {r : Node × Node}
    (h : Node.LeafCut c leaf l r) (hs : OrderedMap.Sorted l) {low high : Nat}
    (hr : ∀ e ∈ l, low ≤ e.1 ∧ e.1 < high) :
    low < r.2.keys 0 ∧ r.2.keys 0 < high ∧
      (∀ e ∈ r.1.entries, low ≤ e.1 ∧ e.1 < r.2.keys 0) ∧
      ∀ e ∈ r.2.entries, r.2.keys 0 ≤ e.1 ∧ e.1 < high := by
  have hcap := c.two_le_maxItems
  have h1 := h.left_size
  have h2 := h.new_size
  have hleft := Node.entries_head h.left_isLeaf (by omega)
  have hnew := Node.entries_head h.new_isLeaf (by omega)
  rw [h.cut] at hs hr
  obtain ⟨_, hs2, hcross⟩ := OrderedMap.sorted_append.mp hs
  have hlow := hr _ (List.mem_append_left _ hleft)
  have hhigh := hr _ (List.mem_append_right _ hnew)
  have hlt := hcross _ hleft _ hnew
  simp only at hlow hhigh hlt
  refine ⟨by omega, hhigh.2, ?_, ?_⟩
  · intro e he
    exact ⟨(hr e (List.mem_append_left _ he)).1, hcross e he _ hnew⟩
  · intro e he
    refine ⟨?_, (hr e (List.mem_append_right _ he)).2⟩
    rw [Node.entries_of_leaf h.new_isLeaf] at he hs2
    obtain ⟨j, hj, rfl⟩ := Slots.mem_pairs.mp he
    exact Slots.Monotone.of_pairwise hs2 0 j (Nat.zero_le j) hj

/-- The two halves of a leaf, with the sibling link, are again well formed. -/
theorem LeafCut.wellFormed {leaf : Node} {l : List (Nat × Value)} {r : Node × Node}
    (h : Node.LeafCut c leaf l r) (hs : OrderedMap.Sorted l) :
    r.1.WellFormed c ∧ r.2.WellFormed c := by
  rw [h.cut] at hs
  obtain ⟨hs1, hs2, _⟩ := OrderedMap.sorted_append.mp hs
  refine ⟨⟨?_, ?_⟩, ⟨?_, ?_⟩⟩
  · rw [Node.capacity, if_pos h.left_isLeaf]
    exact h.left_size.2
  · rw [Node.liveKeys_of_leaf h.left_isLeaf]
    exact List.pairwise_map.mpr hs1
  · rw [Node.capacity, if_pos h.new_isLeaf]
    exact h.new_size.2
  · rw [Node.liveKeys_of_leaf h.new_isLeaf]
    exact List.pairwise_map.mpr hs2

/-- What operation `i` leaves when it splits leaf `n` at `s`. -/
structure LeafDivided (c : Capacity) (i : ι) (t : Tree) (g : Ghost ι) (t' : Tree) (n s : Nat) :
    Prop where
  split : IsSplit t t' n s
  low_lt : g.low n < s
  lt_highKey : s < (t.node n).highKey
  inv : Inv c t' (g.leafSplit i n t.count s)
  evolves : Evolves i t g t' (g.leafSplit i n t.count s)
  pending : Pending t' (g.leafSplit i n t.count s) i s t.count

section LeafSection

variable (h : Inv c t g) (i : ι) (hn : n < t.count) (hl : (t.node n).isLeaf = true) {k : Nat}
  (hlow : g.low n ≤ k) (hhigh : k < (t.node n).highKey) (v : Value)

include h hn hl hlow hhigh in
theorem NodeInv.insertNew_range : ∀ e ∈ OrderedMap.insertNew k v (t.node n).entries,
    g.low n ≤ e.1 ∧ e.1 < (t.node n).highKey := by
  intro e he
  rcases OrderedMap.mem_insertNew.mp he with rfl | he
  · exact ⟨hlow, hhigh⟩
  · exact ((h.node n hn).leaf_range hl).2 e he

include h hn hl hlow hhigh in
/-- `split_leaf_node` on a full leaf that covers the absent key. -/
theorem splitLeafNode_spec (hk : k ∉ (t.node n).liveKeys)
    (hf : (t.node n).isFull c = true) :
    LeafDivided c i t g (t.splitLeafNode c n k v).1 n
        (((t.splitLeafNode c n k v).1.node t.count).keys 0) ∧
      (t.splitLeafNode c n k v).1.content = OrderedMap.insertIfAbsent k v t.content := by
  have hi := h.node n hn
  have hk' : k ∉ (t.node n).entries.map Prod.fst := by rwa [← Node.liveKeys_of_leaf hl]
  have hsize : (t.node n).size = c.maxItems := by
    rw [hi.size_eq_of_full hf]
    simp [Node.capacity, hl]
  have hcut := leafHalves_spec v hl hi.wellFormed hsize hk
  have hsplit := splitLeafNode_isSplit (c := c) k v hn hl
  have hsorted : OrderedMap.Sorted (OrderedMap.insertNew k v (t.node n).entries) :=
    (h.entries_sorted hn).insertNew hk'
  obtain ⟨hr1, hr2, hr3, hr4⟩ := LeafCut.ranges hcut hsorted
    (NodeInv.insertNew_range h hn hl hlow hhigh v)
  obtain ⟨hw1, hw2⟩ := LeafCut.wellFormed hcut hsorted
  have hleft := splitLeafNode_left (c := c) hn k v
  have hnew := splitLeafNode_new (c := c) t n k v
  have hent : ((t.splitLeafNode c n k v).1.node n).entries = (t.leafHalves c n k v).1.entries := by
    rw [hleft]
    rfl
  obtain ⟨hinv, hev, hpend⟩ := h.splitLeaf hn hsplit hl hr1 hr2
    (by rw [hleft]; exact ⟨hw1.size_le, hw1.sorted⟩) (by rw [hnew]; exact hw2)
    (by rw [hent]; exact hr3) (by rw [hnew]; exact hr4) i
  refine ⟨?_, ?_⟩
  · rw [hnew]
    exact ⟨hsplit, hr1, hr2, hinv, hev, hpend⟩
  · obtain ⟨pre, post, h1, h2, h3, h4⟩ := h.content_splitLeaf hinv hn hsplit hl hlow hhigh
    have habs : OrderedMap.insertIfAbsent k v (t.node n).entries =
        OrderedMap.insertNew k v (t.node n).entries := if_neg hk'
    rw [h1, h2, OrderedMap.insertIfAbsent_local h3 h4, hent, hnew, habs, hcut.cut]

include h hn hl hlow hhigh in
/-- `insert_into_leaf` on the leaf that covers the key. -/
theorem insertIntoLeaf_spec :
    ∃ g', Inv c (t.insertIntoLeaf c n k v).1 g' ∧
      Evolves i t g (t.insertIntoLeaf c n k v).1 g' ∧
      (t.insertIntoLeaf c n k v).1.content = OrderedMap.insertIfAbsent k v t.content ∧
      Posts (t.insertIntoLeaf c n k v).1 g' i 0 (t.insertIntoLeaf c n k v).2 := by
  have hi := h.node n hn
  have hm := hi.wellFormed.monotone
  have hmem := Node.mem_liveKeys_iff hm k
  rcases insertIntoLeaf_cases c t n k v with ⟨hk, he⟩ | ⟨hk, hf, he⟩ | ⟨hk, hf, he⟩
  · rw [he]
    refine ⟨g, h, Evolves.refl i t g, ?_, trivial⟩
    obtain ⟨pre, post, h1, h2, h3, h4⟩ := h.content_writeLeaf h hn
      ⟨rfl, rfl, rfl, rfl, rfl, fun _ _ => rfl⟩ hl hlow hhigh
    have hk' := hmem.mpr hk
    rw [Node.liveKeys_of_leaf hl] at hk'
    rw [h1, OrderedMap.insertIfAbsent_local h3 h4, OrderedMap.insertIfAbsent, if_pos hk']
  · rw [he]
    have hk' : k ∉ (t.node n).liveKeys := fun hc => hk (hmem.mp hc)
    have hw : IsWrite t (t.setNode n ((t.node n).insertValue ((t.node n).index k) v k)) n :=
      isWrite_setNode rfl rfl rfl
    have hent := Node.entries_insertValue hl hm k v
    have hinv := h.writeLeaf hn hw hl
      (by rw [setNode_node_self]; exact hi.wellFormed.insertValue hl hf hk' v)
      (by rw [setNode_node_self, hent]; exact NodeInv.insertNew_range h hn hl hlow hhigh v)
    refine ⟨g, hinv, hw.evolves i fun _ _ _ hp => hp, ?_, trivial⟩
    obtain ⟨pre, post, h1, h2, h3, h4⟩ := h.content_writeLeaf hinv hn hw hl hlow hhigh
    rw [Node.liveKeys_of_leaf hl] at hk'
    rw [h1, h2, OrderedMap.insertIfAbsent_local h3 h4, setNode_node_self, hent,
      OrderedMap.insertIfAbsent, if_neg hk']
  · rw [he]
    rcases splitLeafNode_spec h i hn hl hlow hhigh v (fun hc => hk (hmem.mp hc)) hf with
      ⟨hd, hcontent⟩
    refine ⟨_, hd.inv, hd.evolves, hcontent, hd.pending, ?_⟩
    simp only [Ghost.leafSplit, Ghost.split, Slots.store_self]
    exact hi.leaf_iff.mp hl

include h hn hl hlow hhigh in
/-- New values in the leaf that covers the key, such that only the binding of the key changes. -/
theorem setValues_spec {values : Nat → Value}
    (hent : ({ t.node n with values := values } : Node).entries =
      OrderedMap.replace k v (t.node n).entries) :
    Inv c (t.setNode n { t.node n with values := values }) g ∧
      Evolves i t g (t.setNode n { t.node n with values := values }) g ∧
      (t.setNode n { t.node n with values := values }).content =
        OrderedMap.replace k v t.content := by
  have hi := h.node n hn
  have hw : IsWrite t (t.setNode n { t.node n with values := values }) n :=
    isWrite_setNode rfl rfl rfl
  have hwf : ({ t.node n with values := values } : Node).WellFormed c :=
    ⟨hi.wellFormed.size_le, hi.wellFormed.sorted⟩
  have hinv := h.writeLeaf hn hw hl (by rw [setNode_node_self]; exact hwf) (by
    rw [setNode_node_self, hent]
    intro e he
    have hkey : e.1 ∈ (OrderedMap.replace k v (t.node n).entries).map Prod.fst :=
      List.mem_map_of_mem he
    rw [OrderedMap.map_fst_replace] at hkey
    obtain ⟨e', he', heq⟩ := List.mem_map.mp hkey
    rw [← heq]
    exact (hi.leaf_range hl).2 e' he')
  refine ⟨hinv, hw.evolves i fun _ _ _ hp => hp, ?_⟩
  obtain ⟨pre, post, h1, h2, h3, h4⟩ := h.content_writeLeaf hinv hn hw hl hlow hhigh
  rw [h1, h2, OrderedMap.replace_local h3 h4, setNode_node_self, hent]

include h hn hl hlow hhigh in
/-- The search and the write of `update` on the leaf that covers the key. -/
theorem updateValue_spec :
    Inv c (t.setNode n ((t.node n).updateValue c k v)) g ∧
      Evolves i t g (t.setNode n ((t.node n).updateValue c k v)) g ∧
      (t.setNode n ((t.node n).updateValue c k v)).content = OrderedMap.replace k v t.content := by
  have hent := Node.entries_updateValue (h.node n hn).wellFormed hl k v
  obtain ⟨values, hu⟩ := Node.updateValue_eq c (t.node n) k v
  rw [hu] at hent ⊢
  exact setValues_spec h i hn hl hlow hhigh v hent

include h hn hl hlow hhigh in
/-- The write of `update` alone, to the slot of the key or to one that is not live. -/
theorem setValue_spec
    (hk : (t.node n).index k < (t.node n).size → (t.node n).keys ((t.node n).index k) = k) :
    Inv c (t.setNode n ((t.node n).setValue ((t.node n).index k) v)) g ∧
      Evolves i t g (t.setNode n ((t.node n).setValue ((t.node n).index k) v)) g ∧
      (t.setNode n ((t.node n).setValue ((t.node n).index k) v)).content =
        OrderedMap.replace k v t.content :=
  setValues_spec h i hn hl hlow hhigh v
    (Node.entries_setValue (h.node n hn).wellFormed hl v hk)

include h hn hl hlow hhigh in
/-- `find` on the leaf that covers the key. -/
theorem findValue_spec (hg : OrderedMap.get? k t.content = some v) :
    (t.node n).findValue c k = v := by
  rw [h.get?_content hn hl hlow hhigh] at hg
  exact Node.findValue_eq (h.node n hn).wellFormed hl hg

end LeafSection

/-! ## Inner sections -/

/-- A pending key is in no node. -/
theorem Pending.notMem_liveKeys {i : ι} {s x : Nat} (hp : Pending t g i s x) (h : Inv c t g)
    (hn : n < t.count) (hl : (t.node n).isLeaf = false) : s ∉ (t.node n).liveKeys := by
  intro hs
  rw [Node.liveKeys_of_inner hl] at hs
  obtain ⟨e, he, rfl⟩ := List.mem_map.mp hs
  have := ((h.node n hn).sep e he).2.1
  rw [hp.owner_eq] at this
  exact absurd this (by simp)

theorem Pending.sorted_insertNew {i : ι} {s x : Nat} (hp : Pending t g i s x) (h : Inv c t g)
    (hn : n < t.count) (hl : (t.node n).isLeaf = false) :
    OrderedMap.Sorted (OrderedMap.insertNew s (some x) (t.node n).seps) := by
  have hkeys := (h.node n hn).wellFormed.sorted
  have hs := hp.notMem_liveKeys h hn hl
  rw [Node.liveKeys_of_inner hl] at hkeys hs
  exact OrderedMap.Sorted.insertNew (List.pairwise_map.mp hkeys) hs

theorem InnerCut.wellFormed {inner : Node} {x : Nat} {l : List (Nat × Option Nat)}
    {r : Node × Node × Nat} (h : Node.InnerCut c inner x l r) (hs : OrderedMap.Sorted l)
    (hlen : l.length = c.maxKeys + 1) : r.1.WellFormed c ∧ r.2.1.WellFormed c := by
  have hcap := c.two_le_maxKeys
  have hsize := h.left_size
  have hl1 := Node.length_seps h.left_isLeaf
  have hl2 := Node.length_seps h.new_isLeaf
  rw [h.cut] at hs hlen
  obtain ⟨hs1, hs2, _⟩ := OrderedMap.sorted_append.mp hs
  simp only [List.length_append, List.length_cons] at hlen
  refine ⟨⟨?_, ?_⟩, ⟨?_, ?_⟩⟩
  · simp only [Node.capacity, h.left_isLeaf]
    exact (by omega : r.1.size ≤ c.maxKeys)
  · rw [Node.liveKeys_of_inner h.left_isLeaf]
    exact List.pairwise_map.mpr hs1
  · simp only [Node.capacity, h.new_isLeaf]
    exact (by omega : r.2.1.size ≤ c.maxKeys)
  · rw [Node.liveKeys_of_inner h.new_isLeaf]
    exact List.pairwise_map.mpr (OrderedMap.sorted_cons.mp hs2).2

/-- A change of inner nodes leaves the content alone. -/
theorem Inv.content_split {t' : Tree} {s : Nat} {owner : Nat → Owner ι} (h : Inv c t g)
    (h' : Inv c t' (g.split n t.count s owner)) (hn : n < t.count) (hs : IsSplit t t' n s)
    (hl : (t.node n).isLeaf = false) : t'.content = t.content := by
  have hlv : g.level n ≠ 0 := fun h0 => by
    have := (h.node n hn).leaf_iff.mpr h0
    rw [hl] at this
    exact absurd this (by decide)
  refine h.content_inner h' (if_neg (Ne.symm hlv)) fun m hm hml => ?_
  refine hs.frame m ?_ hm.ne
  rintro rfl
  rw [hl] at hml
  exact absurd hml (by decide)

/-- What `split_inner_node` does to node `n` with the separator `x` for key `s`; `up` moves
up. -/
structure InnerDivided (c : Capacity) (t t' : Tree) (n s x up : Nat) : Prop where
  split : IsSplit t t' n up
  height : t'.height = t.height
  first : (t'.node n).first = (t.node n).first
  cut : OrderedMap.insertNew s (some x) (t.node n).seps =
    (t'.node n).seps ++ (up, (t'.node t.count).first) :: (t'.node t.count).seps
  parent : ∀ m, t'.parent m = if some m ∈ (t'.node t.count).children then some t.count
    else t.innerParent c n s x m

theorem splitInnerNode_inv (h : Inv c t g) {i : ι} (hn : n < t.count)
    (hl : (t.node n).isLeaf = false) {s x : Nat} (hp : Pending t g i s x)
    (hlv : g.level x < g.level n) (hsize : (t.node n).size = c.maxKeys) :
    ∃ t', t.splitInnerNode c n s x = some (t', t.count, (t.innerHalves c n s x).2.2) ∧
      InnerDivided c t t' n s x (t.innerHalves c n s x).2.2 ∧
      let g' := g.innerSplit i n t.count s (t.innerHalves c n s x).2.2
        ((t'.node t.count).seps.map Prod.fst)
      Inv c t' g' ∧ Evolves i t g t' g' ∧
        Pending t' g' i (t.innerHalves c n s x).2.2 t.count ∧ t'.content = t.content := by
  have hi := h.node n hn
  have hs := hp.notMem_liveKeys h hn hl
  have hcut := innerHalves_spec x hl hi.wellFormed hsize hs
  have hsome : ∀ e ∈ OrderedMap.insertNew s (some x) (t.node n).seps, e.2 ≠ none := by
    intro e he
    rcases OrderedMap.mem_insertNew.mp he with rfl | he
    · exact Option.some_ne_none x
    · obtain ⟨_, _, y, hy, _⟩ := hi.sep e he
      rw [hy]
      exact Option.some_ne_none y
  have hchildren : ∀ y ∈ (t.innerRight c n s x).children, y ≠ none := by
    have hnl : (t.innerRight c n s x).isLeaf = false := hcut.new_isLeaf
    rw [Node.children_of_inner hnl]
    rw [hcut.cut] at hsome
    intro y hy
    rcases List.mem_cons.mp hy with rfl | hy
    · exact hsome (_, _) (List.mem_append_right _ (List.mem_cons_self ..))
    · obtain ⟨e, he, rfl⟩ := List.mem_map.mp hy
      exact hsome e (List.mem_append_right _ (List.mem_cons_of_mem _ he))
  obtain ⟨t', he, hsplit, hleft, hnew, hheight, hpar⟩ :=
    splitInnerNode_spec hn hl hcut.toInnerShape hchildren
  have hsorted := hp.sorted_insertNew h hn hl
  have hlen : (OrderedMap.insertNew s (some x) (t.node n).seps).length = c.maxKeys + 1 := by
    rw [OrderedMap.length_insertNew, Node.length_seps hl, hsize]
  obtain ⟨hw1, hw2⟩ := InnerCut.wellFormed hcut hsorted hlen
  have hdiv : InnerDivided c t t' n s x (t.innerHalves c n s x).2.2 := by
    refine ⟨hsplit, hheight, ?_, ?_, ?_⟩
    · rw [hleft]
      exact hcut.left_first
    · rw [hleft, hnew]
      exact hcut.cut
    · rw [hnew]
      exact hpar
  obtain ⟨h1, h2, h3⟩ := h.splitInner hn hsplit hl
    (by rw [hleft]; exact ⟨hw1.size_le, hw1.sorted⟩)
    (by rw [hnew]; exact ⟨hw2.size_le, hw2.sorted⟩) hp hlv hdiv.first hdiv.cut rfl
  exact ⟨t', he, hdiv, h1, h2, h3, h.content_split h1 hn hsplit hl⟩

/-- What `insert_into_inner` does to a node with room. -/
structure Inserted (t t' : Tree) (n s x : Nat) : Prop where
  write : IsWrite t t' n
  height : t'.height = t.height
  parent : t'.parent = t.parent
  first : (t'.node n).first = (t.node n).first
  seps : (t'.node n).seps = OrderedMap.insertNew s (some x) (t.node n).seps

/-- The two branches of `insert_into_inner` with a pending separator from a lower level. -/
theorem insertIntoInner_cases (h : Inv c t g) {i : ι} (hn : n < t.count)
    (hl : (t.node n).isLeaf = false) {s x : Nat} (hp : Pending t g i s x)
    (hlv : g.level x < g.level n) :
    (∃ t', t.insertIntoInner c n s x = some (t', none) ∧ Inserted t t' n s x ∧
      let g' := { g with owner := Slots.store g.owner s (.stored n) }
      Inv c t' g' ∧ Evolves i t g t' g' ∧ t'.content = t.content) ∨
    ∃ t' up, t.insertIntoInner c n s x = some (t', some (t.count, up)) ∧
      InnerDivided c t t' n s x up ∧
      let g' := g.innerSplit i n t.count s up ((t'.node t.count).seps.map Prod.fst)
      Inv c t' g' ∧ Evolves i t g t' g' ∧ t'.content = t.content ∧
        Pending t' g' i up t.count := by
  have hi := h.node n hn
  have hm := hi.wellFormed.monotone
  have hs := hp.notMem_liveKeys h hn hl
  cases hf : (t.node n).isFull c with
  | false =>
      have hw : IsWrite t (t.setNode n ((t.node n).insertSeparator ((t.node n).index s) x s)) n :=
        isWrite_setNode rfl rfl rfl
      have hins : Inserted t (t.setNode n ((t.node n).insertSeparator ((t.node n).index s) x s))
          n s x := by
        refine ⟨hw, rfl, rfl, ?_, ?_⟩
        · rw [setNode_node_self]
          exact Node.first_insertSeparator _ _ _ _
        · rw [setNode_node_self]
          exact Node.seps_insertSeparator hl hm s x
      rcases h.writeInner hn hw hl
        (by rw [setNode_node_self]; exact hi.wellFormed.insertSeparator hl hf hs x) hp hlv
        hins.first hins.seps with ⟨hinv, hev⟩
      refine Or.inl ⟨_, if_pos hf, hins, hinv, hev, ?_⟩
      refine h.content_inner hinv rfl fun m _ hml => setNode_node_of_ne _ _ ?_
      rintro rfl
      rw [hl] at hml
      exact absurd hml (by decide)
  | true =>
      have hsize : (t.node n).size = c.maxKeys := by
        rw [hi.size_eq_of_full hf]
        simp [Node.capacity, hl]
      rcases splitInnerNode_inv h hn hl hp hlv hsize with
        ⟨t', he, hdiv, hinv, hev, hpend, hcontent⟩
      refine Or.inr ⟨t', _, ?_, hdiv, hinv, hev, hcontent, hpend⟩
      unfold Tree.insertIntoInner
      simp only [hf, he]
      rfl

/-- `insert_into_inner` with a pending separator from a lower level. -/
theorem insertIntoInner_spec (h : Inv c t g) {i : ι} (hn : n < t.count)
    (hl : (t.node n).isLeaf = false) {s x : Nat} (hp : Pending t g i s x)
    (hlv : g.level x < g.level n) :
    ∃ t' up g', t.insertIntoInner c n s x = some (t', up) ∧ Inv c t' g' ∧
      Evolves i t g t' g' ∧ t'.content = t.content ∧ Posts t' g' i (g.level n) up := by
  rcases insertIntoInner_cases h hn hl hp hlv with
    ⟨t', he, _, hinv, hev, hcontent⟩ | ⟨t', up, he, _, hinv, hev, hcontent, hpend⟩
  · exact ⟨t', none, _, he, hinv, hev, hcontent, trivial⟩
  · refine ⟨t', some (t.count, up), _, he, hinv, hev, hcontent, hpend, ?_⟩
    simp [Ghost.innerSplit, Ghost.split]

/-- `create_new_root` on the root with a pending separator. -/
theorem createNewRoot_spec (h : Inv c t g) {i : ι} {s x : Nat} (hp : Pending t g i s x) :
    ∃ g', Inv c (t.createNewRoot t.root x s) g' ∧
      Evolves i t g (t.createNewRoot t.root x s) g' ∧
      (t.createNewRoot t.root x s).content = t.content ∧
      g'.level t.count = g.level t.root + 1 := by
  have hr := createNewRoot_isNewRoot t t.root x s
  obtain ⟨hinv, hev⟩ := h.newRoot hp hr
  have hchain : (g.newRoot t.root t.count s).chain 0 = g.chain 0 := by simp [Ghost.newRoot]
  refine ⟨_, hinv, hev, ?_, Slots.store_self _ _ _⟩
  exact h.content_inner hinv hchain fun m hm _ => hr.frame m hm.ne

end BLinkTree

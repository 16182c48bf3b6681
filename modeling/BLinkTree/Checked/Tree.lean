import BLinkTree.Checked.Node
import BLinkTree.Operations

/-! # The tree operations on checked nodes

`create_new_root`, `split_inner_node` and `split_leaf_node` of `tree.cpp` and the insertion
helpers of the `ThreadTree`, on nodes whose arrays have their real lengths. Each of them has a
result where the operation of the tree has one, and the same one.
-/

namespace BLinkTree

variable {c : Capacity}

/-- A tree of checked nodes. -/
structure CheckedTree (c : Capacity) where
  node : Nat → CheckedNode c
  parent : Nat → Option Nat
  count : Nat
  root : Nat
  height : Nat

namespace CheckedNode

/-- The node part of `Tree::split_inner_node`. -/
def splitInner (inner new : CheckedNode c) (key : Nat) (separator : Nat) :
    Option (CheckedNode c × CheckedNode c × Nat) := do
  let leftSize := c.maxKeys / 2
  let rightSize := c.maxKeys - leftSize
  let new := { new with highKey := inner.highKey }
  let low ← inner.innerKey (leftSize - 1)
  if key < low then
    let new ← inner.copy new leftSize rightSize
    let first ← inner.separator leftSize
    let new ← new.setSeparator 0 first
    let new ← new.setSize rightSize
    let keyUp ← inner.innerKey (leftSize - 1)
    let inner ← inner.setSize (leftSize - 1)
    let index ← inner.index key
    let inner ← inner.insertSeparator index separator key
    return (inner, new, keyUp)
  else
    let middle ← inner.innerKey leftSize
    if key < middle then
      let new ← inner.copy new leftSize rightSize
      let new ← new.setSeparator 0 (some separator)
      let inner ← inner.setSize leftSize
      let new ← new.setSize rightSize
      return (inner, new, key)
    else
      let new ← inner.copy new (leftSize + 1) (rightSize - 1)
      let first ← inner.separator (leftSize + 1)
      let new ← new.setSeparator 0 first
      let inner ← inner.setSize leftSize
      let new ← new.setSize (rightSize - 1)
      let keyUp ← inner.innerKey leftSize
      let index ← new.index key
      let new ← new.insertSeparator index separator key
      return (inner, new, keyUp)

/-- The node part of `Tree::split_leaf_node`. -/
def splitLeaf (leaf new : CheckedNode c) (key : Nat) (value : Value) :
    Option (CheckedNode c × CheckedNode c) := do
  let leftSize := c.maxItems / 2
  let rightSize := c.maxItems - leftSize
  let new ← leaf.copy new leftSize rightSize
  let new := { new with highKey := leaf.highKey, rightSibling := leaf.rightSibling }
  let new ← new.setSize rightSize
  let leaf ← leaf.setSize leftSize
  let first ← new.leafKey 0
  if key < first then
    let index ← leaf.index key
    let leaf ← leaf.insertValue index value key
    return (leaf, new)
  else
    let index ← new.index key
    let new ← new.insertValue index value key
    return (leaf, new)

end CheckedNode

namespace CheckedTree

/-- `Tree::Tree`. -/
def empty (c : Capacity) : CheckedTree c where
  node := fun _ => .create c true
  parent := fun _ => none
  count := 1
  root := 0
  height := 1

def setNode (t : CheckedTree c) (i : Nat) (n : CheckedNode c) : CheckedTree c :=
  { t with node := Slots.store t.node i n }

/-- `Node::parent(parent)`. -/
def setParent (t : CheckedTree c) (i : Nat) (p : Option Nat) : CheckedTree c :=
  { t with parent := Slots.store t.parent i p }

/-- `Tree::create_node`. -/
def createNode (t : CheckedTree c) (isLeaf : Bool) (parent : Option Nat) : CheckedTree c :=
  { t with
    node := Slots.store t.node t.count (.create c isLeaf)
    parent := Slots.store t.parent t.count parent
    count := t.count + 1 }

/-- `Tree::create_new_root`. -/
def createNewRoot (t : CheckedTree c) (left right : Nat) (key : Nat) :
    Option (CheckedTree c) := do
  let root := t.count
  let t := t.createNode false none
  let t := t.setParent left (some root)
  let n ← (t.node root).setSeparator 0 (some left)
  let t := t.setNode root n
  let t := t.setParent right (some root)
  let n ← (t.node root).insertSeparator 0 right key
  let t := t.setNode root n
  return { t with height := t.height + 1, root := root }

/-- The loop at the end of `split_inner_node`, from separator `index` on; a null pointer ends
it without a result. -/
def setParents (t : CheckedTree c) (p : Nat) : Nat → Nat → Option (CheckedTree c)
  | 0, _ => some t
  | rounds + 1, index => do
      let separator ← (t.node p).separator index
      let s ← separator
      (t.setParent s (some p)).setParents p rounds (index + 1)

/-- `Tree::split_inner_node`. -/
def splitInnerNode (t : CheckedTree c) (innerNode : Nat) (key : Nat) (separator : Nat) :
    Option (CheckedTree c × Nat × Nat) := do
  let inner := t.node innerNode
  let newInnerNode := t.count
  let t := t.createNode false (t.parent innerNode)
  let (left, new, keyUp) ← inner.splitInner (t.node newInnerNode) key separator
  -- `separator->parent(inner_node)` of the first branch, with the test of that branch
  let low ← inner.innerKey (c.maxKeys / 2 - 1)
  let t := if key < low then t.setParent separator (some innerNode) else t
  let new := { new with rightSibling := left.rightSibling }
  let left := { left with rightSibling := some newInnerNode, highKey := keyUp }
  let t := (t.setNode innerNode left).setNode newInnerNode new
  let t ← t.setParents newInnerNode (new.size + 1) 0
  return (t, newInnerNode, keyUp)

/-- `Tree::split_leaf_node`. -/
def splitLeafNode (t : CheckedTree c) (leafNode : Nat) (key : Nat) (value : Value) :
    Option (CheckedTree c × Nat) := do
  let leaf := t.node leafNode
  let newLeafNode := t.count
  let t := t.createNode true (t.parent leafNode)
  let (left, new) ← leaf.splitLeaf (t.node newLeafNode) key value
  let first ← new.leafKey 0
  let left := { left with rightSibling := some newLeafNode, highKey := first }
  return ((t.setNode leafNode left).setNode newLeafNode new, newLeafNode)

/-- `ThreadTree::insert_into_leaf`. -/
def insertIntoLeaf (t : CheckedTree c) (leafNode : Nat) (key : Nat) (value : Value) :
    Option (CheckedTree c × Option (Nat × Nat)) := do
  let leaf := t.node leafNode
  let index ← leaf.index key
  let found ← leaf.hasLeafKey index key
  if found then return (t, none)
  else if leaf.isFull = false then
    let leaf ← leaf.insertValue index value key
    return (t.setNode leafNode leaf, none)
  else
    let (t, rightLeaf) ← t.splitLeafNode leafNode key value
    let first ← (t.node rightLeaf).leafKey 0
    return (t, some (rightLeaf, first))

/-- `ThreadTree::insert_into_inner`. -/
def insertIntoInner (t : CheckedTree c) (innerNode : Nat) (key : Nat) (separator : Nat) :
    Option (CheckedTree c × Option (Nat × Nat)) := do
  let inner := t.node innerNode
  if inner.isFull = false then
    let index ← inner.index key
    let inner ← inner.insertSeparator index separator key
    return (t.setNode innerNode inner, none)
  else
    let (t, up) ← t.splitInnerNode innerNode key separator
    return (t, some up)

end CheckedTree

/-! ## Splits of single nodes -/

/-- The new leaf is not empty. -/
theorem Node.size_splitLeaf_pos (c : Capacity) (leaf new : Node) (key : Nat) (value : Value) :
    0 < (leaf.splitLeaf c new key value).2.size := by
  have h2 := c.two_le_maxItems
  dsimp only [Node.splitLeaf]
  split
  · show 0 < c.maxItems - c.maxItems / 2
    omega
  · exact Nat.succ_pos _

namespace CheckedNode

variable {n : CheckedNode c} {m : Node}

/-- The right half of an inner split: the last slots of the node and a first separator. -/
theorem Shows.rightHalf (h : n.Shows m) (hl : n.isLeaf = false) (raw : Memory) (key : Nat)
    {i k : Nat} (hk : i + k = m.size) (first : Option Nat) :
    ∃ x y z, n.copy { create c false with highKey := key } i k = some x ∧
      x.setSeparator 0 first = some y ∧ y.setSize k = some z ∧ z.isLeaf = false ∧
      z.Shows { (m.copy { Node.create false raw with highKey := key } i k).setSeparator 0 first with
        size := k } := by
  have hle := h.size_le
  have hnew := (agrees_create c false raw 0).setHighKey key
  rcases h.copy hnew hl.symm hk.le (by omega) (fun _ => ⟨by omega, by omega⟩) with
    ⟨x, hcopy, hxl, hx⟩
  have hsep : ∃ y, x.setSeparator 0 first = some y ∧ y.isLeaf = x.isLeaf ∧
      y.Agrees ((m.copy { Node.create false raw with highKey := key } i k).setSeparator 0 first)
        k 0 (k + 1) :=
    hx.setSeparator (hxl.trans hl) (Nat.zero_le _) first fun j _ hj => by omega
  rcases hsep with ⟨y, hsep, hyl, hy⟩
  have hslots : c.slots y.isLeaf = c.slots n.isLeaf := by rw [hyl, hxl]
  rcases hy.setSize k (by omega) with ⟨z, hsize, hzl, hz⟩
  exact ⟨x, y, z, hcopy, hsep, hsize, hzl.trans (hyl.trans (hxl.trans hl)), hz⟩

/-- The left half of an inner split: the first slots of the node stay. -/
theorem Shows.leftHalf (h : n.Shows m) {k : Nat} (hk : k ≤ m.size) :
    ∃ z, n.setSize k = some z ∧ z.isLeaf = n.isLeaf ∧
      z.Agrees { m with size := k } m.size 0 (m.size + 1) :=
  h.setSize k (hk.trans h.size_le)

theorem Shows.splitInner (h : n.Shows m) (hl : n.isLeaf = false) (hfull : m.size = c.maxKeys)
    (raw : Memory) (key separator : Nat) :
    ∃ left new, n.splitInner (create c false) key separator =
        some (left, new, (m.splitInner c (Node.create false raw) key separator).2.2) ∧
      left.Shows (m.splitInner c (Node.create false raw) key separator).1 ∧
      new.Shows (m.splitInner c (Node.create false raw) key separator).2.1 := by
  have h2 := c.two_le_maxKeys
  have hlow : n.innerKey (c.maxKeys / 2 - 1) = some (m.keys (c.maxKeys / 2 - 1)) :=
    h.innerKey hl (by omega)
  have hmid : n.innerKey (c.maxKeys / 2) = some (m.keys (c.maxKeys / 2)) :=
    h.innerKey hl (by omega)
  unfold CheckedNode.splitInner Node.splitInner
  by_cases hk1 : key < m.keys (c.maxKeys / 2 - 1)
  · -- the old node gets the separator
    have hsep : n.separator (c.maxKeys / 2) = some (m.separators (c.maxKeys / 2)) :=
      h.separator hl (Nat.zero_le _) (by omega)
    rcases h.rightHalf hl raw n.highKey (i := c.maxKeys / 2) (k := c.maxKeys - c.maxKeys / 2)
      (by omega) (m.separators (c.maxKeys / 2)) with ⟨x, y, z, hcopy, hset, hsize, hzl, hz⟩
    rcases h.leftHalf (k := c.maxKeys / 2 - 1) (by omega) with ⟨w, hw, hwl, hwa⟩
    replace hwl := hwl.trans hl
    have hidx := hwa.index (show c.maxKeys / 2 - 1 ≤ m.size by omega) key
    rcases hwa.insertSeparator hwl (show c.maxKeys / 2 - 1 ≤ m.size by omega)
      (show c.maxKeys / 2 - 1 < m.size + 1 by omega) (show c.maxKeys / 2 - 1 < c.maxKeys by omega)
      (Node.index_le _ key) separator key with ⟨u, hu, hus⟩
    refine ⟨u, z, ?_, ?_, ?_⟩
    · simp only [Option.bind_eq_bind, hlow, Option.bind_some, hk1, if_true, hcopy, hsep, hset,
        hsize, hw, hidx, hu]
      rfl
    · rw [if_pos hk1]
      exact hus
    · rw [if_pos hk1]
      rw [h.highKey] at hz
      exact hz
  · by_cases hk2 : key < m.keys (c.maxKeys / 2)
    · -- the key moves up
      rcases h.rightHalf hl raw n.highKey (i := c.maxKeys / 2) (k := c.maxKeys - c.maxKeys / 2)
        (by omega) (some separator) with ⟨x, y, z, hcopy, hset, hsize, hzl, hz⟩
      rcases h.leftHalf (k := c.maxKeys / 2) (by omega) with ⟨w, hw, hwl, hwa⟩
      refine ⟨w, z, ?_, ?_, ?_⟩
      · simp only [Option.bind_eq_bind, hlow, Option.bind_some, hk1, if_false, hmid, hk2, if_true,
          hcopy, hset, hw, hsize]
        rfl
      · rw [if_neg hk1, if_pos hk2]
        exact hwa.mono (show c.maxKeys / 2 ≤ m.size by omega) le_rfl
          (show c.maxKeys / 2 + 1 ≤ m.size + 1 by omega)
      · rw [if_neg hk1, if_pos hk2]
        rw [h.highKey] at hz
        exact hz
    · -- the new node gets the separator
      have hsep : n.separator (c.maxKeys / 2 + 1) = some (m.separators (c.maxKeys / 2 + 1)) :=
        h.separator hl (Nat.zero_le _) (by omega)
      rcases h.rightHalf hl raw n.highKey (i := c.maxKeys / 2 + 1)
        (k := c.maxKeys - c.maxKeys / 2 - 1) (by omega) (m.separators (c.maxKeys / 2 + 1)) with
        ⟨x, y, z, hcopy, hset, hsize, hzl, hz⟩
      rcases h.leftHalf (k := c.maxKeys / 2) (by omega) with ⟨w, hw, hwl, hwa⟩
      replace hwl := hwl.trans hl
      have hup := hwa.innerKey hwl (show c.maxKeys / 2 < m.size by omega)
      have hidx := hz.index le_rfl key
      rcases hz.insertSeparator hzl le_rfl (Nat.lt_succ_self _)
        (show c.maxKeys - c.maxKeys / 2 - 1 < c.maxKeys by omega) (Node.index_le _ key) separator
        key with ⟨u, hu, hus⟩
      refine ⟨w, u, ?_, ?_, ?_⟩
      · simp only [Option.bind_eq_bind, hlow, Option.bind_some, hk1, if_false, hmid, hk2, hcopy,
          hsep, hset, hw, hsize, hup, hidx, hu]
        rfl
      · rw [if_neg hk1, if_neg hk2]
        exact hwa.mono (show c.maxKeys / 2 ≤ m.size by omega) le_rfl
          (show c.maxKeys / 2 + 1 ≤ m.size + 1 by omega)
      · rw [if_neg hk1, if_neg hk2, ← h.highKey]
        exact hus

theorem Shows.splitLeaf (h : n.Shows m) (hl : n.isLeaf = true) (hfull : m.size = c.maxItems)
    (raw : Memory) (key : Nat) (value : Value) :
    ∃ left new, n.splitLeaf (create c true) key value = some (left, new) ∧
      left.Shows (m.splitLeaf c (Node.create true raw) key value).1 ∧
      new.Shows (m.splitLeaf c (Node.create true raw) key value).2 := by
  have h2 := c.two_le_maxItems
  have hslots := slots_of_leaf hl
  rcases h.copy (agrees_create c true raw 0) hl.symm
    (show c.maxItems / 2 + (c.maxItems - c.maxItems / 2) ≤ m.size by omega) (by omega)
    (fun hf => absurd (hl.symm.trans hf) (by decide)) with ⟨x, hcopy, hxl, hx⟩
  have hxl := hxl.trans hl
  rcases ((hx.setHighKey n.highKey).setRightSibling n.rightSibling).setSize
    (c.maxItems - c.maxItems / 2) (by rw [slots_of_leaf hxl]; omega) with ⟨z, hz, hzl, hza⟩
  rcases h.leftHalf (k := c.maxItems / 2) (by omega) with ⟨w, hw, hwl, hwa⟩
  replace hzl := hzl.trans hxl
  replace hwl := hwl.trans hl
  have hfirst := hza.leafKey hzl (show 0 < c.maxItems - c.maxItems / 2 by omega)
  rw [h.highKey, h.rightSibling] at hza
  unfold CheckedNode.splitLeaf Node.splitLeaf
  by_cases hk : key < (m.copy (Node.create true raw) (c.maxItems / 2)
      (c.maxItems - c.maxItems / 2)).keys 0
  · have hidx := hwa.index (show c.maxItems / 2 ≤ m.size by omega) key
    rcases hwa.insertValue hwl (show c.maxItems / 2 ≤ m.size by omega)
      (show c.maxItems / 2 < c.maxItems by omega) (Node.index_le _ key) value key with
      ⟨u, hu, hus⟩
    refine ⟨u, z, ?_, ?_, ?_⟩
    · simp only [Option.bind_eq_bind, hcopy, Option.bind_some, hz, hw, hfirst, hk, if_true, hidx,
        hu]
      rfl
    · rw [if_pos hk]
      exact hus
    · rw [if_pos hk]
      exact hza.shows_of_leaf hzl le_rfl
  · have hidx := hza.index le_rfl key
    rcases hza.insertValue hzl le_rfl (show c.maxItems - c.maxItems / 2 < c.maxItems by omega)
      (Node.index_le _ key) value key with ⟨u, hu, hus⟩
    refine ⟨w, u, ?_, ?_, ?_⟩
    · simp only [Option.bind_eq_bind, hcopy, Option.bind_some, hz, hw, hfirst, hk, if_false, hidx,
        hu]
      rfl
    · rw [if_neg hk]
      exact hwa.shows_of_leaf hwl (show c.maxItems / 2 ≤ m.size by omega)
    · rw [if_neg hk]
      exact hus

end CheckedNode

/-! ## Agreement with the tree -/

namespace CheckedTree

/-- The trees are the same, and all live slots are known, but for those of one node. -/
structure ShowsBut (s : CheckedTree c) (t : Tree) (but : Option Nat) : Prop where
  parent : s.parent = t.parent
  count : s.count = t.count
  root : s.root = t.root
  height : s.height = t.height
  node : ∀ n < t.count, but ≠ some n → (s.node n).Shows (t.node n)

/-- All live slots of the tree are known. -/
def Shows (s : CheckedTree c) (t : Tree) : Prop := s.ShowsBut t none

variable {s s' : CheckedTree c} {t t' : Tree} {but : Option Nat} {n : Nat} {x : CheckedNode c}
  {m : Node}

@[simp] theorem node_createNode (s : CheckedTree c) (isLeaf : Bool) (parent : Option Nat) :
    (s.createNode isLeaf parent).node s.count = .create c isLeaf := Slots.store_self _ _ _

@[simp] theorem node_setParent (s : CheckedTree c) (i : Nat) (p : Option Nat) :
    (s.setParent i p).node = s.node := rfl

@[simp] theorem node_setNode (s : CheckedTree c) (i : Nat) (x : CheckedNode c) :
    (s.setNode i x).node i = x := Slots.store_self _ _ _

theorem Shows.node_shows (h : s.Shows t) (hn : n < t.count) : (s.node n).Shows (t.node n) :=
  h.node n hn (by simp)

theorem shows_empty (c : Capacity) (memory : Nat → Memory) :
    (empty c).Shows (Tree.empty memory) where
  parent := rfl
  count := rfl
  root := rfl
  height := rfl
  node := fun _ _ _ => CheckedNode.shows_create_leaf c _

theorem ShowsBut.setParent (h : s.ShowsBut t but) (i : Nat) (p : Option Nat) :
    (s.setParent i p).ShowsBut (t.setParent i p) but where
  parent := congrArg (Slots.store · i p) h.parent
  count := h.count
  root := h.root
  height := h.height
  node := h.node

/-- A write of one node, of which nothing has to be known if it is the excepted one afterwards. -/
theorem ShowsBut.write {but' : Option Nat} (h : s.ShowsBut t but) {i : Nat}
    (hx : but' ≠ some i → x.Shows m) (hbut : ∀ k ≠ i, but' ≠ some k → but ≠ some k) :
    (s.setNode i x).ShowsBut (t.setNode i m) but' where
  parent := h.parent
  count := h.count
  root := h.root
  height := h.height
  node := by
    intro k hk hb
    show (Slots.store s.node i x k).Shows (Slots.store t.node i m k)
    by_cases hki : k = i
    · rw [hki] at hb ⊢
      rw [Slots.store_self, Slots.store_self]
      exact hx hb
    · rw [Slots.store_of_ne _ _ hki, Slots.store_of_ne _ _ hki]
      exact h.node k hk (hbut k hki hb)

theorem ShowsBut.setNode (h : s.ShowsBut t but) (hx : x.Shows m) (i : Nat) :
    (s.setNode i x).ShowsBut (t.setNode i m) but :=
  h.write (fun _ => hx) fun _ _ hb => hb

theorem ShowsBut.forget (h : s.ShowsBut t (some n)) (x : CheckedNode c) (m : Node) :
    (s.setNode n x).ShowsBut (t.setNode n m) (some n) :=
  h.write (fun hb => absurd rfl hb) fun _ _ hb => hb

/-- The excepted node is written. -/
theorem ShowsBut.complete (h : s.ShowsBut t (some n)) (hx : x.Shows m) :
    (s.setNode n x).Shows (t.setNode n m) :=
  h.write (fun _ => hx) fun _ hkn _ he => hkn (Option.some.inj he).symm

/-- Of a new node nothing is known. -/
theorem Shows.createNode (h : s.Shows t) (isLeaf : Bool) (parent : Option Nat) :
    (s.createNode isLeaf parent).ShowsBut (t.createNode isLeaf parent) (some t.count) where
  parent := by
    show Slots.store s.parent s.count parent = Slots.store t.parent t.count parent
    rw [h.parent, h.count]
  count := congrArg (· + 1) h.count
  root := h.root
  height := h.height
  node := by
    intro n hn hb
    have hne : n ≠ t.count := fun he => hb (congrArg some he.symm)
    have hlt : n < t.count := by
      have hn : n < t.count + 1 := hn
      omega
    show (Slots.store s.node s.count _ n).Shows (Slots.store t.node t.count _ n)
    rw [h.count, Slots.store_of_ne _ _ hne, Slots.store_of_ne _ _ hne]
    exact h.node_shows hlt

/-! ## The operations -/

theorem Shows.createNewRoot (h : s.Shows t) (left right key : Nat) :
    ∃ s', s.createNewRoot left right key = some s' ∧
      s'.Shows (t.createNewRoot left right key) := by
  have hroom := c.two_le_maxKeys
  have hfresh := CheckedNode.agrees_create c false (t.node t.count).toMemory 0
  have hset : ∃ y, (CheckedNode.create c false).setSeparator 0 (some left) = some y ∧
      y.isLeaf = (CheckedNode.create c false).isLeaf ∧
      y.Agrees ((Node.create false (t.node t.count).toMemory).setSeparator 0 (some left)) 0 0 1 :=
    hfresh.setSeparator rfl (Nat.zero_le _) (some left) fun j _ hj => by omega
  rcases hset with ⟨y, hrun, hyl, hy⟩
  have hinsert : ∃ z, y.insertSeparator 0 right key = some z ∧
      z.Shows (((Node.create false (t.node t.count).toMemory).setSeparator 0
        (some left)).insertSeparator 0 right key) :=
    hy.insertSeparator hyl le_rfl Nat.zero_lt_one (show 0 < c.maxKeys by omega) le_rfl right key
  rcases hinsert with ⟨z, hrun', hz⟩
  have hbut := ((h.createNode false none).setParent left (some t.count)).forget y
    ((Node.create false (t.node t.count).toMemory).setSeparator 0 (some left))
  have hall := (hbut.setParent right (some t.count)).complete hz
  have ht : t.createNewRoot left right key =
      { ((((t.createNode false none).setParent left (some t.count)).setNode t.count
          ((Node.create false (t.node t.count).toMemory).setSeparator 0 (some left))).setParent
            right (some t.count)).setNode t.count
          (((Node.create false (t.node t.count).toMemory).setSeparator 0
            (some left)).insertSeparator 0 right key) with
        height := t.height + 1, root := t.count } := by
    simp [Tree.createNewRoot, Tree.createNode, Tree.setNode, Tree.setParent]
  rw [ht]
  refine ⟨{ ((((s.createNode false none).setParent left (some t.count)).setNode t.count y).setParent
      right (some t.count)).setNode t.count z with height := s.height + 1, root := t.count }, ?_,
    ⟨hall.parent, hall.count, rfl, congrArg (· + 1) h.height, hall.node⟩⟩
  rw [← h.count]
  simp only [CheckedTree.createNewRoot, node_setParent, node_createNode, hrun, node_setNode, hrun',
    Option.bind_eq_bind, Option.bind_some]
  rfl

/-- The loop over the separators, which are all known. -/
theorem Shows.setParents (h : s.Shows t) {p : Nat} (hp : p < t.count)
    (hl : (t.node p).isLeaf = false) {rounds index : Nat}
    (hr : index + rounds ≤ (t.node p).size + 1)
    (ht : t.setParents p ((List.range' index rounds).map (t.node p).separators) = some t') :
    ∃ s', s.setParents p rounds index = some s' ∧ s'.Shows t' := by
  induction rounds generalizing s t index with
  | zero =>
      obtain rfl : t = t' := Option.some.inj ht
      exact ⟨s, rfl, h⟩
  | succ rounds ih =>
      have hnode := h.node_shows hp
      have hread : (s.node p).separator index = some ((t.node p).separators index) :=
        hnode.separator (hnode.isLeaf.trans hl) (Nat.zero_le _) (by omega)
      rw [List.range'_succ, List.map_cons] at ht
      cases hy : (t.node p).separators index with
      | none =>
          rw [hy] at ht
          exact absurd ht (by simp [Tree.setParents])
      | some y =>
          rw [hy] at ht hread
          have hr' : index + 1 + rounds ≤ (t.node p).size + 1 := by omega
          rcases ih (h.setParent y (some p)) hp hl hr' ht with ⟨s', hrun, hs'⟩
          refine ⟨s', ?_, hs'⟩
          simp only [CheckedTree.setParents, hread, Option.bind_eq_bind, Option.bind_some]
          exact hrun

/-- The tree in front of the loop over the new node. -/
theorem Shows.innerBase (h : s.Shows t) (key separator : Nat) {left new : CheckedNode c}
    (hleft : left.Shows (t.innerHalves c n key separator).1)
    (hnew : new.Shows (t.innerHalves c n key separator).2.1) :
    (((if key < (t.node n).keys (c.maxKeys / 2 - 1) then
        (s.createNode false (t.parent n)).setParent separator (some n)
        else s.createNode false (t.parent n)).setNode n
      { left with
        rightSibling := some t.count, highKey := (t.innerHalves c n key separator).2.2 }).setNode
          t.count { new with rightSibling := left.rightSibling }).Shows
      (t.innerBase c n key separator) := by
  have hcreate := h.createNode false (t.parent n)
  have hleft' : { left with
      rightSibling := some t.count
      highKey := (t.innerHalves c n key separator).2.2 }.Shows (t.innerLeft c n key separator) :=
    (hleft.setRightSibling (some t.count)).setHighKey (t.innerHalves c n key separator).2.2
  have hnew' : { new with rightSibling := left.rightSibling }.Shows
      (t.innerRight c n key separator) := by
    rw [hleft.rightSibling]
    exact hnew.setRightSibling (t.innerHalves c n key separator).1.rightSibling
  by_cases hk : key < (t.node n).keys (c.maxKeys / 2 - 1)
  · have hbase : t.innerBase c n key separator =
        (((t.createNode false (t.parent n)).setParent separator (some n)).setNode n
          (t.innerLeft c n key separator)).setNode t.count (t.innerRight c n key separator) := by
      unfold Tree.innerBase Tree.innerParent
      rw [if_pos hk]
      rfl
    rw [if_pos hk, hbase]
    exact ((hcreate.setParent separator (some n)).setNode hleft' n).complete hnew'
  · have hbase : t.innerBase c n key separator =
        ((t.createNode false (t.parent n)).setNode n
          (t.innerLeft c n key separator)).setNode t.count (t.innerRight c n key separator) := by
      unfold Tree.innerBase Tree.innerParent
      rw [if_neg hk]
      rfl
    rw [if_neg hk, hbase]
    exact (hcreate.setNode hleft' n).complete hnew'

theorem Shows.splitInnerNode (h : s.Shows t) (hn : n < t.count) (hl : (t.node n).isLeaf = false)
    (hfull : (t.node n).size = c.maxKeys) {key separator : Nat} {up : Nat × Nat}
    (ht : t.splitInnerNode c n key separator = some (t', up)) :
    ∃ s', s.splitInnerNode n key separator = some (s', up) ∧ s'.Shows t' := by
  have hmax := c.two_le_maxKeys
  have hnode := h.node_shows hn
  have hsl : (s.node n).isLeaf = false := hnode.isLeaf.trans hl
  have hlow : (s.node n).innerKey (c.maxKeys / 2 - 1) =
      some ((t.node n).keys (c.maxKeys / 2 - 1)) := hnode.innerKey hsl (by omega)
  rcases hnode.splitInner hsl hfull (t.node t.count).toMemory key separator with
    ⟨left, new, hrun, hleft, hnew⟩
  have hsplit : (s.node n).splitInner (.create c false) key separator =
      some (left, new, (t.innerHalves c n key separator).2.2) := hrun
  have hbase := h.innerBase key separator hleft hnew
  have hnewl : (t.innerRight c n key separator).isLeaf = false :=
    (innerHalves_shape key separator hl hfull).new_isLeaf
  rw [splitInnerNode_eq, Option.map_eq_some_iff] at ht
  rcases ht with ⟨t₁, hset, he⟩
  obtain ⟨rfl, rfl⟩ := Prod.mk.inj he
  have hchildren : (t.innerRight c n key separator).children =
      (List.range' 0 ((t.innerRight c n key separator).size + 1)).map
        (t.innerRight c n key separator).separators := by
    rw [← List.range_eq_range']
    simp [Node.children, hnewl]
  have hnode' : (t.innerBase c n key separator).node t.count = t.innerRight c n key separator :=
    Slots.store_self _ _ _
  have hsize : new.size = (t.innerRight c n key separator).size := hnew.size
  rw [hchildren, ← hsize, ← hnode'] at hset
  have hloop := hbase.setParents (Nat.lt_succ_self t.count) (by rw [hnode']; exact hnewl)
    (by rw [hnode', hsize, Nat.zero_add]) hset
  rcases hloop with ⟨s', hparents, hs'⟩
  refine ⟨s', ?_, hs'⟩
  simp only [CheckedTree.splitInnerNode, node_createNode, hsplit, hlow, Option.bind_eq_bind,
    Option.bind_some]
  rw [h.parent, h.count, hparents]
  rfl

/-! ### Leaves and the insertion helpers -/

theorem Shows.splitLeafNode (h : s.Shows t) (hn : n < t.count) (hl : (t.node n).isLeaf = true)
    (hfull : (t.node n).size = c.maxItems) (key : Nat) (value : Value) :
    ∃ s', s.splitLeafNode n key value = some (s', t.count) ∧
      s'.Shows (t.splitLeafNode c n key value).1 := by
  have hnode := h.node_shows hn
  have hsl : (s.node n).isLeaf = true := hnode.isLeaf.trans hl
  rcases hnode.splitLeaf hsl hfull (t.node t.count).toMemory key value with
    ⟨left, new, hrun, hleft, hnew⟩
  have hcut := leafHalves_shape (c := c) key value hl
  have hnewl : new.isLeaf = true := hnew.isLeaf.trans hcut.new_isLeaf
  have hfirst : new.leafKey 0 = some ((t.leafHalves c n key value).2.keys 0) :=
    hnew.leafKey hnewl (Node.size_splitLeaf_pos c _ _ key value)
  have hall := ((h.createNode true (t.parent n)).setNode
    ((hleft.setRightSibling (some t.count)).setHighKey
      ((t.leafHalves c n key value).2.keys 0)) n).complete hnew
  rw [splitLeafNode_eq]
  refine ⟨_, ?_, hall⟩
  simp only [CheckedTree.splitLeafNode, node_createNode, hrun, hfirst, Option.bind_eq_bind,
    Option.bind_some]
  rw [h.parent, h.count]
  rfl

theorem Shows.insertIntoLeaf (h : s.Shows t) (hn : n < t.count) (hl : (t.node n).isLeaf = true)
    (key : Nat) (value : Value) :
    ∃ s', s.insertIntoLeaf n key value = some (s', (t.insertIntoLeaf c n key value).2) ∧
      s'.Shows (t.insertIntoLeaf c n key value).1 := by
  have hnode := h.node_shows hn
  have hsl : (s.node n).isLeaf = true := hnode.isLeaf.trans hl
  have hindex := hnode.index le_rfl key
  have hfound := hnode.hasLeafKey hsl le_rfl ((t.node n).index key) key
  have hslots := CheckedNode.slots_of_leaf hsl
  unfold CheckedTree.insertIntoLeaf
  simp only [hindex, Option.bind_eq_bind, Option.bind_some, hfound, hnode.isFull_eq]
  rcases insertIntoLeaf_cases c t n key value with ⟨hk, he⟩ | ⟨hk, hroom, he⟩ | ⟨hk, hfull, he⟩
  · rw [he]
    refine ⟨s, ?_, h⟩
    rw [decide_eq_true hk]
    rfl
  · rw [he]
    have hlt : (t.node n).size < c.maxItems := hslots ▸ hnode.size_lt_slots hroom
    rcases hnode.insertValue hsl le_rfl hlt (Node.index_le _ key) value key with ⟨x, hrun, hx⟩
    refine ⟨s.setNode n x, ?_, h.setNode hx n⟩
    rw [decide_eq_false hk, hroom, hrun]
    rfl
  · rw [he]
    have hsize : (t.node n).size = c.maxItems := hslots ▸ hnode.size_eq_slots hfull
    rcases h.splitLeafNode hn hl hsize key value with ⟨s', hrun, hs'⟩
    have hcount : (t.splitLeafNode c n key value).1.count = t.count + 1 := rfl
    have hnew := hs'.node_shows (show t.count < (t.splitLeafNode c n key value).1.count by omega)
    rw [splitLeafNode_new] at hnew
    have hnewl : (s'.node t.count).isLeaf = true :=
      hnew.isLeaf.trans (leafHalves_shape (c := c) key value hl).new_isLeaf
    have hfirst := hnew.leafKey hnewl (Node.size_splitLeaf_pos c _ _ key value)
    refine ⟨s', ?_, hs'⟩
    rw [decide_eq_false hk, hfull, hrun]
    simp only [Bool.false_eq_true, if_false, Bool.true_eq_false, Option.bind_some, hfirst]
    rw [splitLeafNode_new]
    rfl

theorem Shows.insertIntoInner (h : s.Shows t) (hn : n < t.count) (hl : (t.node n).isLeaf = false)
    {key separator : Nat} {up : Option (Nat × Nat)}
    (ht : t.insertIntoInner c n key separator = some (t', up)) :
    ∃ s', s.insertIntoInner n key separator = some (s', up) ∧ s'.Shows t' := by
  have hnode := h.node_shows hn
  have hsl : (s.node n).isLeaf = false := hnode.isLeaf.trans hl
  have hslots := CheckedNode.slots_of_inner hsl
  unfold CheckedTree.insertIntoInner
  simp only [hnode.isFull_eq, hnode.index le_rfl key, Option.bind_eq_bind, Option.bind_some]
  unfold Tree.insertIntoInner at ht
  cases hfull : (t.node n).isFull c with
  | false =>
      have hlt : (t.node n).size < c.maxKeys := hslots ▸ hnode.size_lt_slots hfull
      simp only [hfull, if_true, Option.some.injEq, Prod.mk.injEq] at ht
      rcases ht with ⟨rfl, rfl⟩
      rcases hnode.insertSeparator hsl le_rfl (Nat.lt_succ_self _) hlt (Node.index_le _ key)
        separator key with ⟨x, hrun, hx⟩
      refine ⟨s.setNode n x, ?_, h.setNode hx n⟩
      rw [if_pos rfl, hrun]
      rfl
  | true =>
      have hsize : (t.node n).size = c.maxKeys := hslots ▸ hnode.size_eq_slots hfull
      simp only [hfull, Bool.true_eq_false, if_false, Option.map_eq_some_iff,
        Prod.mk.injEq] at ht
      rcases ht with ⟨⟨t₁, r⟩, hsplit, rfl, rfl⟩
      rcases h.splitInnerNode hn hl hsize hsplit with ⟨s', hrun, hs'⟩
      refine ⟨s', ?_, hs'⟩
      rw [if_neg (by decide), hrun]
      rfl

end CheckedTree

end BLinkTree

import BLinkTree.Node

/-! # The shared tree operations

`Tree` of `tree.h` with the node memory it works on, `create_new_root`,
`split_inner_node` and `split_leaf_node` of `tree.cpp`, and the two insertion
helpers that the latched and the optimistic `ThreadTree` have in common. A
function that would follow a null pointer has the result `none`.
-/

namespace BLinkTree

/-- Nodes `0 .. count - 1` have been created; `parent` is the header field of
that name. -/
structure Tree where
  node : Nat → Node
  parent : Nat → Option Nat
  count : Nat
  root : Nat
  height : Nat

namespace Node

/-- The node part of `Tree::split_inner_node`: the shrunken node, the new node and
the key that moves up. -/
def splitInner (c : Capacity) (inner new : Node) (key : Nat) (separator : Nat) :
    Node × Node × Nat :=
  let leftSize := c.maxKeys / 2
  let rightSize := c.maxKeys - leftSize
  let new := { new with highKey := inner.highKey }
  if key < inner.keys (leftSize - 1) then
    let new := inner.copy new leftSize rightSize
    let new := new.setSeparator 0 (inner.separators leftSize)
    let new := { new with size := rightSize }
    let keyUp := inner.keys (leftSize - 1)
    let inner := { inner with size := leftSize - 1 }
    (inner.insertSeparator (inner.index key) separator key, new, keyUp)
  else if key < inner.keys leftSize then
    let new := inner.copy new leftSize rightSize
    let new := new.setSeparator 0 (some separator)
    let inner := { inner with size := leftSize }
    (inner, { new with size := rightSize }, key)
  else
    let new := inner.copy new (leftSize + 1) (rightSize - 1)
    let new := new.setSeparator 0 (inner.separators (leftSize + 1))
    let keyUp := inner.keys leftSize
    let inner := { inner with size := leftSize }
    let new := { new with size := rightSize - 1 }
    (inner, new.insertSeparator (new.index key) separator key, keyUp)

/-- The node part of `Tree::split_leaf_node` without the sibling links: the shrunken
leaf and the new leaf. -/
def splitLeaf (c : Capacity) (leaf new : Node) (key : Nat) (value : Value) : Node × Node :=
  let leftSize := c.maxItems / 2
  let rightSize := c.maxItems - leftSize
  let new := leaf.copy new leftSize rightSize
  let new := { new with highKey := leaf.highKey, rightSibling := leaf.rightSibling,
                        size := rightSize }
  let leaf := { leaf with size := leftSize }
  if key < new.keys 0 then (leaf.insertValue (leaf.index key) value key, new)
  else (leaf, new.insertValue (new.index key) value key)

end Node

namespace Tree

/-- `Tree::Tree`: one empty leaf. The contents of the memory are arbitrary, also
of the memory the later nodes are built in. -/
def empty (memory : Nat → Memory) : Tree where
  node := fun i => Node.create true (memory i)
  parent := fun _ => none
  count := 1
  root := 0
  height := 1

def setNode (t : Tree) (i : Nat) (n : Node) : Tree :=
  { t with node := Slots.store t.node i n }

/-- `Node::parent(parent)`. -/
def setParent (t : Tree) (i : Nat) (p : Option Nat) : Tree :=
  { t with parent := Slots.store t.parent i p }

/-- `Tree::create_node`; the new node is number `count`. -/
def createNode (t : Tree) (isLeaf : Bool) (parent : Option Nat) : Tree :=
  { t with
    node := Slots.store t.node t.count (Node.create isLeaf (t.node t.count).toMemory)
    parent := Slots.store t.parent t.count parent
    count := t.count + 1 }

/-- `Tree::create_new_root`. -/
def createNewRoot (t : Tree) (left right : Nat) (key : Nat) : Tree :=
  let root := t.count
  let t := t.createNode false none
  let t := t.setParent left (some root)
  let t := t.setNode root ((t.node root).setSeparator 0 (some left))
  let t := t.setParent right (some root)
  let t := t.setNode root ((t.node root).insertSeparator 0 right key)
  { t with height := t.height + 1, root := root }

/-- The loop at the end of `split_inner_node`: every listed separator gets `p` as its
parent. -/
def setParents (t : Tree) (p : Nat) : List (Option Nat) → Option Tree
  | [] => some t
  | none :: _ => none
  | some s :: rest => (t.setParent s (some p)).setParents p rest

/-- `Tree::split_inner_node`. -/
def splitInnerNode (c : Capacity) (t : Tree) (innerNode : Nat) (key : Nat)
    (separator : Nat) : Option (Tree × Nat × Nat) :=
  let inner := t.node innerNode
  let newInnerNode := t.count
  let t := t.createNode false (t.parent innerNode)
  let (left, new, keyUp) := inner.splitInner c (t.node newInnerNode) key separator
  let t := if key < inner.keys (c.maxKeys / 2 - 1) then t.setParent separator (some innerNode)
    else t
  let new := { new with rightSibling := left.rightSibling }
  let left := { left with rightSibling := some newInnerNode, highKey := keyUp }
  let t := (t.setNode innerNode left).setNode newInnerNode new
  (t.setParents newInnerNode new.children).map fun t => (t, newInnerNode, keyUp)

/-- `Tree::split_leaf_node`. -/
def splitLeafNode (c : Capacity) (t : Tree) (leafNode : Nat) (key : Nat) (value : Value) :
    Tree × Nat :=
  let leaf := t.node leafNode
  let newLeafNode := t.count
  let t := t.createNode true (t.parent leafNode)
  let (left, new) := leaf.splitLeaf c (t.node newLeafNode) key value
  let left := { left with rightSibling := some newLeafNode, highKey := new.keys 0 }
  ((t.setNode leafNode left).setNode newLeafNode new, newLeafNode)

/-- `ThreadTree::insert_into_leaf`; the second component is the pair `up`, `none`
standing for a null `up.first`. -/
def insertIntoLeaf (c : Capacity) (t : Tree) (leafNode : Nat) (key : Nat) (value : Value) :
    Tree × Option (Nat × Nat) :=
  let leaf := t.node leafNode
  let index := leaf.index key
  if index < leaf.size ∧ leaf.keys index = key then (t, none)
  else if leaf.isFull c = false then (t.setNode leafNode (leaf.insertValue index value key), none)
  else
    let (t, rightLeaf) := t.splitLeafNode c leafNode key value
    (t, some (rightLeaf, (t.node rightLeaf).keys 0))

/-- `ThreadTree::insert_into_inner`. -/
def insertIntoInner (c : Capacity) (t : Tree) (innerNode : Nat) (key : Nat)
    (separator : Nat) : Option (Tree × Option (Nat × Nat)) :=
  let inner := t.node innerNode
  if inner.isFull c = false then
    some (t.setNode innerNode (inner.insertSeparator (inner.index key) separator key), none)
  else (t.splitInnerNode c innerNode key separator).map fun r => (r.1, some r.2)

/-! ## Reading the leaves -/

/-- Descend by the leftmost separators. -/
def leftmostLeaf (t : Tree) : Nat → Nat → Nat
  | 0, n => n
  | fuel + 1, n =>
      match (t.node n).first with
      | none => n
      | some s => leftmostLeaf t fuel s

/-- Follow `right_sibling`. -/
def siblings (t : Tree) : Nat → Nat → List Nat
  | 0, _ => []
  | fuel + 1, n =>
      n :: match (t.node n).rightSibling with
        | none => []
        | some r => siblings t fuel r

/-- The leaves from the leftmost one along `right_sibling`. No walk visits more nodes
than there are. -/
def leaves (t : Tree) : List Nat := t.siblings t.count (t.leftmostLeaf t.count t.root)

/-- The bindings in the live slots of the leaves, from left to right. -/
def content (t : Tree) : List (Nat × Value) := t.leaves.flatMap fun n => (t.node n).entries

/-- The lower bound of a node: the high key of its left neighbour. A split makes its
separator key the high key of the left node, and a later split hands it on to the
new left neighbour. -/
def lowKey (t : Tree) (n : Nat) : Nat :=
  match (List.range t.count).find? fun m => decide ((t.node m).rightSibling = some n) with
  | none => 0
  | some m => (t.node m).highKey

/-- `leaf` is the one leaf whose range `[low, high_key)` contains `key`. -/
def Covers (t : Tree) (leaf : Nat) (key : Nat) : Prop :=
  leaf < t.count ∧ (t.node leaf).isLeaf = true ∧ t.lowKey leaf ≤ key ∧
    key < (t.node leaf).highKey ∧
    ∀ n < t.count, (t.node n).isLeaf = true → t.lowKey n ≤ key → key < (t.node n).highKey →
      n = leaf

end Tree

end BLinkTree

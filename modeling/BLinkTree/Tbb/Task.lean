import BLinkTree.Calls

/-! # The tasks of the TBB trees

`insert_task.cpp`, `update_task.cpp` and `lookup_task.cpp`: what a task does with a
node. The builds differ in how they latch the node between the parts.
-/

namespace BLinkTree.Tbb

open Linearization Interleaving

/-- What `execute` leaves: the tree, the separator that an insert carries, the node it
returns, the result if this was the leaf step, and whether the operation is complete. -/
structure Executed where
  tree : Tree
  separator : Option (Nat × Nat)
  next : Option Nat
  effect : Option Value
  complete : Bool

/-- The end of both insertions after a split: `node` has a parent, or it gets a new root. -/
def goUp (t : Tree) (node separator key : Nat) (effect : Option Value) : Executed :=
  match t.parent node with
  | none => ⟨t.createNewRoot node separator key, some (separator, key), none, effect, true⟩
  | some p => ⟨t, some (separator, key), some p, effect, false⟩

/-- `InsertTask::insert_into_leaf_node`. -/
def insertIntoLeafNode (c : Capacity) (t : Tree) (node key : Nat) (value : Value) : Executed :=
  let leaf := t.node node
  let index := leaf.index key
  if index < leaf.size ∧ leaf.keys index = key then ⟨t, none, none, some 0, true⟩
  else if leaf.isFull c = false then
    ⟨t.setNode node (leaf.insertValue index value key), none, none, some 0, true⟩
  else
    let (t, rightLeaf) := t.splitLeafNode c node key value
    goUp t node rightLeaf ((t.node rightLeaf).keys 0) (some 0)

/-- `InsertTask::insert_into_inner_node`; `none` when it follows a null separator. -/
def insertIntoInnerNode (c : Capacity) (t : Tree) (node key separator : Nat) : Option Executed :=
  let inner := t.node node
  if inner.isFull c = false then
    let t := t.setNode node (inner.insertSeparator (inner.index key) separator key)
    some ⟨t.setParent separator (some node), some (separator, key), none, none, true⟩
  else
    (t.splitInnerNode c node key separator).map fun r => goUp r.1 node r.2.1 r.2.2 none

/-- The part of `execute` in front of the writes: the node that is returned without a
write, if there is one. -/
def advance (t : Tree) (o : Op) (separator : Option (Nat × Nat)) (node : Nat) :
    Option (Option Nat) :=
  if (t.node node).highKey ≤ o.key then some (t.node node).rightSibling
  else if separator = none ∧ (t.node node).isLeaf = false then some ((t.node node).child o.key)
  else none

/-- The part of `execute` that works on the node. -/
def work (c : Capacity) (t : Tree) (o : Op) (separator : Option (Nat × Nat)) (node : Nat) :
    Option Executed :=
  match o with
  | .insert k v =>
      match separator with
      | none => some (insertIntoLeafNode c t node k v)
      | some (x, s) => insertIntoInnerNode c t node s x
  | .update k v => some ⟨t.setNode node ((t.node node).updateValue c k v), none, none, some 0, true⟩
  | .find k => some ⟨t, none, none, some ((t.node node).findValue c k), true⟩

/-- `InsertTask::execute`, `UpdateTask::execute` and `LookupTask::execute` with the latch of
the node held throughout. -/
def execute (c : Capacity) (t : Tree) (o : Op) (separator : Option (Nat × Nat)) (node : Nat) :
    Option Executed :=
  match advance t o separator node with
  | some next => some ⟨t, separator, next, none, false⟩
  | none => work c t o separator node

/-- A task that waits for its next `execute`. `lost` is a task that got a null node before
its operation was complete. -/
inductive Pc where
  | idle
  | task (o : Op) (separator : Option (Nat × Nat)) (node : Nat)
  | done (o : Op) (result : Value)
  | lost (o : Op)

inductive Act where
  | spawn (o : Op)
  | go

def Act.Valid : Act → Prop
  | spawn o => o.key < maxKey
  | go => True

instance : (a : Act) → Decidable a.Valid
  | .spawn o => inferInstanceAs (Decidable (o.key < maxKey))
  | .go => inferInstanceAs (Decidable True)

/-- `NodeTask::execute`: the task runs again on the returned node, or ends. -/
def Executed.pc (x : Executed) (o : Op) : Pc :=
  match x.next with
  | some n => .task o x.separator n
  | none => if x.complete then .done o (x.effect.getD 0) else .lost o

/-- One step of a task in the builds with exclusive latches. -/
def next (c : Capacity) : Program Tree Pc Act (Event Op Value)
  | t, .idle, .spawn o => some (t, .task o none t.root, some (.invoke o))
  | t, .task o separator n, .go =>
      match execute c t o separator n with
      | none => some (t, .lost o, none)
      | some x => some (x.tree, x.pc o, x.effect.map (.effect o))
  | t, .done o r, .go => some (t, .idle, some (.ret o r))
  | _, _, _ => none

abbrev World := Interleaving.World Nat Tree Pc (Event Op Value)

def init (memory : Nat → Memory) : World where
  shared := Tree.empty memory
  thread := fun _ => .idle
  history := []

/-- How far the operation of a task is. -/
def Pc.status : Pc → Status Op Value
  | idle => .idle
  | task o none _ => .called o
  | task o (some _) _ => .applied o 0
  | done o r => .applied o r
  | lost o => .called o

end BLinkTree.Tbb

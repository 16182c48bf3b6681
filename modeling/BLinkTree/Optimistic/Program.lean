import BLinkTree.Versions
import BLinkTree.Latched.Program

/-! # The optimistic thread tree

`thread/optimistic/thread_tree.cpp` in the build `blinktree_thread_olfit`. Readers take no
latch: they read the version of a node, then the node, then compare the version. Writers
acquire the version. Every access to a node is a step of its own; what a writer does to
the tree between `acquire` and `release` is one step.
-/

namespace BLinkTree.Optimistic

open Linearization Interleaving VersionLock

/-- Where a thread is.

In `locate_leaf`: `locate` is about to read the version, `inner` the right sibling, `child`
the child; `childRead` is about to compare the version.

On the leaf level: `leaf` starts the loop of the call and is about to read the version, which
`insert` compares at once in `check`; `move` is about to read the high key, `sibling` and
`right` are the two reads of the right sibling, `rightRead` is about to compare and `again`
to read the version of the next round. Behind the loop `update` compares the version in
`leave`; `find` reads index, key and value of its slot in `search`, `slot` and `slotKey`, and
compares in `found`.

`acquire` and `mutate` are the leaf part of `insert` and `update`. In the propagation,
`parent` is about to acquire its node, `parentHigh` to compare the high key, `parentRight` to
read the right sibling and `parentInsert` to insert. `release` gives the latch back and goes on
as the latched tree does. -/
inductive Pc where
  | idle
  | start (o : Op)
  | locate (o : Op) (path : List Nat) (node : Nat)
  | inner (o : Op) (path : List Nat) (node version : Nat)
  | child (o : Op) (path : List Nat) (node version : Nat) (right : Option Nat)
  | childRead (o : Op) (path : List Nat) (node version : Nat) (right next : Option Nat)
  | leaf (o : Op) (path : List Nat) (node : Nat)
  | check (o : Op) (path : List Nat) (node version : Nat)
  | move (o : Op) (path : List Nat) (node version : Nat)
  | sibling (o : Op) (path : List Nat) (node version : Nat)
  | right (o : Op) (path : List Nat) (node version : Nat)
  | rightRead (o : Op) (path : List Nat) (node version : Nat) (next : Option Nat)
  | again (o : Op) (path : List Nat) (node : Nat)
  | leave (o : Op) (path : List Nat) (node version : Nat)
  | search (o : Op) (path : List Nat) (node version : Nat)
  | slot (o : Op) (path : List Nat) (node version index : Nat)
  | slotKey (o : Op) (path : List Nat) (node version index key : Nat)
  | found (o : Op) (path : List Nat) (node version : Nat) (result : Value)
  | acquire (o : Op) (path : List Nat) (node : Nat)
  | mutate (o : Op) (path : List Nat) (node : Nat)
  | parent (o : Op) (path : List Nat) (node key separator : Nat)
  | parentHigh (o : Op) (path : List Nat) (node key separator : Nat)
  | parentRight (o : Op) (path : List Nat) (node key separator : Nat)
  | parentInsert (o : Op) (path : List Nat) (node key separator : Nat)
  | release (node : Nat) (after : Latched.Pc)
  | newRoot (o : Op) (key separator : Nat)
  | done (o : Op) (result : Value)
  | crashed (o : Op)

/-- Where the thread goes on when it has released its node. -/
def resume : Latched.Pc → Pc
  | .idle => .idle
  | .start o => .start o
  | .inner o path n => .locate o path n
  | .leaf o path n => .leaf o path n
  | .parent o path n s x => .parent o path n s x
  | .newRoot o s x => .newRoot o s x
  | .done o r => .done o r
  | .crashed o => .crashed o

/-- Go to a node that was read, null included. -/
def follow (o : Op) (pc : Nat → Pc) : Option Nat → Pc
  | none => .crashed o
  | some n => pc n

/-- Behind the version at the start of the loop. -/
def enterLeaf (o : Op) (path : List Nat) (n v : Nat) : Pc :=
  match o with
  | .insert _ _ => .check o path n v
  | _ => .move o path n v

/-- Behind the loop over the leaves: `insert` acquires without another comparison. -/
def leaveLeaf (o : Op) (path : List Nat) (n v : Nat) : Pc :=
  match o with
  | .insert _ _ => .acquire o path n
  | .update _ _ => .leave o path n v
  | .find _ => .search o path n v

/-- `locate_leaf` pushes the node it leaves when the next one is not its sibling. -/
def push (o : Op) (path : List Nat) (n : Nat) (right next : Option Nat) : List Nat :=
  if next = right then path else Latched.push o path n

def next (c : Capacity) : Program VersionedTree Pc Latched.Act (Event Op Value)
  | s, .idle, .call o => some (s, .start o, some (.invoke o))
  | s, .start o, .go => some (s, .locate o [] s.tree.root, none)
  | s, .locate o path n, .go => (s.readValid n).map fun v => (s, .inner o path n v, none)
  | s, .inner o path n v, .go =>
      if (s.tree.node n).isLeaf then some (s, .leaf o path n, none)
      else some (s, .child o path n v (s.tree.node n).rightSibling, none)
  | s, .child o path n v r, .go =>
      some (s, .childRead o path n v r ((s.tree.node n).child o.key), none)
  | s, .childRead o path n v r m, .go =>
      if isValid (s.version n) v then some (s, follow o (.locate o (push o path n r m)) m, none)
      else some (s, .locate o path n, none)
  | s, .leaf o path n, .go => (s.readValid n).map fun v => (s, enterLeaf o path n v, none)
  | s, .check o path n v, .go =>
      if isValid (s.version n) v then some (s, .move o path n v, none)
      else some (s, .leaf o path n, none)
  | s, .move o path n v, .go =>
      if (s.tree.node n).highKey ≤ o.key then some (s, .sibling o path n v, none)
      else some (s, leaveLeaf o path n v, none)
  | s, .sibling o path n v, .go =>
      if (s.tree.node n).rightSibling = none then some (s, leaveLeaf o path n v, none)
      else some (s, .right o path n v, none)
  | s, .right o path n v, .go =>
      some (s, .rightRead o path n v (s.tree.node n).rightSibling, none)
  | s, .rightRead o path n v r, .go =>
      if isValid (s.version n) v then some (s, follow o (.again o path) r, none)
      else some (s, .again o path n, none)
  | s, .again o path n, .go => (s.readValid n).map fun v => (s, .move o path n v, none)
  | s, .leave o path n v, .go =>
      if isValid (s.version n) v then some (s, .acquire o path n, none)
      else some (s, .leaf o path n, none)
  | s, .search o path n v, .go => some (s, .slot o path n v ((s.tree.node n).index o.key), none)
  | s, .slot o path n v j, .go =>
      some (s, .slotKey o path n v j ((s.tree.node n).leafKey c j), none)
  | s, .slotKey o path n v j k, .go =>
      some (s, .found o path n v (if k = o.key then (s.tree.node n).values j else 0), none)
  | s, .found o path n v r, .go =>
      if isValid (s.version n) v then some (s, .done o r, some (.effect o r))
      else some (s, .leaf o path n, none)
  | s, .acquire o path n, .go => (s.lock n).map fun s => (s, .mutate o path n, none)
  | s, .mutate o path n, .go =>
      let (t, pc, r) := Latched.leafSection c s.tree o path n
      some ({ s with tree := t }, .release n pc, some (.effect o r))
  | s, .parent o path n k x, .go =>
      (s.lock n).map fun s => (s, .parentHigh o path n k x, none)
  | s, .parentHigh o path n k x, .go =>
      if (s.tree.node n).highKey ≤ k then some (s, .parentRight o path n k x, none)
      else some (s, .parentInsert o path n k x, none)
  | s, .parentRight o path n k x, .go =>
      some (s, .release n (Latched.moveRight s.tree n o fun r => .parent o path r k x), none)
  | s, .parentInsert o path n k x, .go =>
      match s.tree.insertIntoInner c n k x with
      | none => some (s, .crashed o, none)
      | some (t, up) => some ({ s with tree := t }, .release n (Latched.propagate o path up), none)
  | s, .release n pc, .go => some (s.unlock n, resume pc, none)
  | s, .newRoot o k x, .go =>
      some ({ s with tree := s.tree.createNewRoot s.tree.root x k }, .done o 0, none)
  | s, .done o r, .go => some (s, .idle, some (.ret o r))
  | _, _, _ => none

abbrev World := Interleaving.World Nat VersionedTree Pc (Event Op Value)

def init (memory : Nat → Memory) : World where
  shared := VersionedTree.empty memory
  thread := fun _ => .idle
  history := []

def Pc.status : Pc → Status Op Value
  | idle => .idle
  | start o => .called o
  | locate o _ _ => .called o
  | inner o _ _ _ => .called o
  | child o _ _ _ _ => .called o
  | childRead o _ _ _ _ _ => .called o
  | leaf o _ _ => .called o
  | check o _ _ _ => .called o
  | move o _ _ _ => .called o
  | sibling o _ _ _ => .called o
  | right o _ _ _ => .called o
  | rightRead o _ _ _ _ => .called o
  | again o _ _ => .called o
  | leave o _ _ _ => .called o
  | search o _ _ _ => .called o
  | slot o _ _ _ _ => .called o
  | slotKey o _ _ _ _ _ => .called o
  | found o _ _ _ _ => .called o
  | acquire o _ _ => .called o
  | mutate o _ _ => .called o
  | parent o _ _ _ _ => .applied o 0
  | parentHigh o _ _ _ _ => .applied o 0
  | parentRight o _ _ _ _ => .applied o 0
  | parentInsert o _ _ _ _ => .applied o 0
  | release _ pc => pc.status
  | newRoot o _ _ => .applied o 0
  | done o r => .applied o r
  | crashed o => .called o

/-- The step that runs `insert_into_leaf` or the leaf write of `update`. -/
def leafWrite : Pc → Latched.Act → Option (Op × Nat)
  | .mutate o _ n, .go => some (o, n)
  | _, _ => none

/-- The leaf that a writer has chosen and not yet acquired. -/
def waits : Pc → Option (Op × Nat)
  | .acquire o _ n => some (o, n)
  | _ => none

/-- Keys below the largest one, and no comparison behind the leaf loops that takes a version
`2 ^ 30` writers ago, or a multiple of it, for the current one. -/
def Valid (s : VersionedTree) : Pc → Latched.Act → Prop
  | _, .call o => o.key < maxKey
  | .leave _ _ n v, .go => ¬ Wraps (s.version n) v
  | .found _ _ n v _, .go => ¬ Wraps (s.version n) v
  | _, .go => True

instance (s : VersionedTree) (pc : Pc) (a : Latched.Act) : Decidable (Valid s pc a) := by
  unfold Valid
  split <;> infer_instance

/-- The step cuts no key off a leaf that a writer has chosen. -/
def Harmless (c : Capacity) (s : VersionedTree) (pc : Pc) (a : Latched.Act) (other : Pc) : Prop :=
  Spares c s.tree (leafWrite pc a) (waits other)

instance (c : Capacity) (s : VersionedTree) (pc : Pc) (a : Latched.Act) (other : Pc) :
    Decidable (Harmless c s pc a other) :=
  inferInstanceAs (Decidable (Spares c s.tree _ _))

def Careful (c : Capacity) : World → Nat → Latched.Act → Prop := Apart Valid (Harmless c)

end BLinkTree.Optimistic

import BLinkTree.Versions
import BLinkTree.Writes
import BLinkTree.Lib.Interleaving

/-! # Readers among field writes

`find` of the optimistic tree, one read of a field or slot a step, beside threads that
change the tree, one write of a field or slot a step. A writer acquires a node, runs
`insert_into_leaf`, the leaf write of `update` or `insert_into_inner` on it and releases it,
or runs `create_new_root` under the lock of the tree. Which node it acquires is open: it may
be any node that is in the tree.

The memory is what the threads read and write. Beside it the state keeps the tree as it is
once every change that has begun is complete; the program never reads it. Ranges and
bindings are those of this tree: while a node is split, its fields say nothing about its
range.
-/

namespace BLinkTree.Optimistic

open Interleaving VersionLock

namespace Fields

/-- The nodes in memory, the fields `_root_node` and `_lock` of the tree and the version of
every node. `tree` has the changes that have begun, and `level` the level for which a node
was created. -/
structure Shared extends VersionedTree where
  memory : Nat → Node
  root : Nat
  locked : Bool
  level : Nat → Nat

/-- Where `find` is. Every state but the first and the last two is in front of one read.

In `locate_leaf`: `locate` reads the version, `inner` the kind of the node and its right
sibling, `childSize` and `childLoop` are the reads of `Node::child`, and `childRead` compares
the version.

On the leaf level: `leaf` reads the version, `highKey` the high key, `sibling` and `right` are
the two reads of the right sibling, `rightRead` compares the version and `again` reads the
one of the next round. `indexSize` and `indexLoop` are the reads of `Node::index`, `slot` reads
the key, `slotKey` the value, and `found` compares the version. -/
inductive Reader where
  | start (key : Nat)
  | locate (key node : Nat)
  | inner (key node version : Nat)
  | childSize (key node version : Nat) (right : Option Nat)
  | childLoop (key node version : Nat) (low high : Int)
  | childRead (key node version : Nat) (next : Option Nat)
  | leaf (key node : Nat)
  | highKey (key node version : Nat)
  | sibling (key node version : Nat)
  | right (key node version : Nat)
  | rightRead (key node version : Nat) (next : Option Nat)
  | again (key node : Nat)
  | indexSize (key node version : Nat)
  | indexLoop (key node version first len : Nat)
  | slot (key node version index : Nat)
  | slotKey (key node version index found : Nat)
  | found (key node version found : Nat) (value : Value)
  | done (key : Nat) (result : Value)
  | crashed (key : Nat)
  deriving DecidableEq

/-- Go to a node that was read, null included. -/
def follow (key : Nat) (reader : Nat → Reader) : Option Nat → Reader
  | none => .crashed key
  | some n => reader n

/-- One read of `find`. -/
def Reader.next (c : Capacity) (s : Shared) : Reader → Option Reader
  | .start k => some (.locate k s.root)
  | .locate k n => (s.readValid n).map fun v => .inner k n v
  | .inner k n v =>
      if (s.memory n).isLeaf then some (.leaf k n)
      else some (.childSize k n v (s.memory n).rightSibling)
  | .childSize k n v _ => some (.childLoop k n v 0 (Node.int16 ((s.memory n).size - 1)))
  | .childLoop k n v low high =>
      if low ≤ high then
        let mid := Node.int16 ((low + high) / 2)
        if (s.memory n).keys mid.toNat ≤ k then
          some (.childLoop k n v (Node.int16 (mid + 1)) high)
        else some (.childLoop k n v low (Node.int16 (mid - 1)))
      else some (.childRead k n v ((s.memory n).separators (high + 1).toNat))
  | .childRead k n v m =>
      if isValid (s.version n) v then some (follow k (.locate k) m) else some (.locate k n)
  | .leaf k n => (s.readValid n).map fun v => .highKey k n v
  | .highKey k n v =>
      if (s.memory n).highKey ≤ k then some (.sibling k n v) else some (.indexSize k n v)
  | .sibling k n v =>
      if (s.memory n).rightSibling = none then some (.indexSize k n v) else some (.right k n v)
  | .right k n v => some (.rightRead k n v (s.memory n).rightSibling)
  | .rightRead k n v r =>
      if isValid (s.version n) v then some (follow k (.again k) r) else some (.again k n)
  | .again k n => (s.readValid n).map fun v => .highKey k n v
  | .indexSize k n v => some (.indexLoop k n v 0 (s.memory n).size)
  | .indexLoop k n v first len =>
      if len = 0 then some (.slot k n v first)
      else
        let half := len / 2
        if (s.memory n).keys (first + half) < k then
          some (.indexLoop k n v (first + half + 1) (len - half - 1))
        else some (.indexLoop k n v first half)
  | .slot k n v j => some (.slotKey k n v j ((s.memory n).leafKey c j))
  | .slotKey k n v j q => some (.found k n v q ((s.memory n).values j))
  | .found k n v q r =>
      if isValid (s.version n) v then some (.done k (if q = k then r else 0))
      else some (.leaf k n)
  | .done _ _ => none
  | .crashed _ => none

/-- The key of the call. -/
def Reader.key : Reader → Nat
  | start k => k
  | locate k _ => k
  | inner k _ _ => k
  | childSize k _ _ _ => k
  | childLoop k _ _ _ _ => k
  | childRead k _ _ _ => k
  | leaf k _ => k
  | highKey k _ _ => k
  | sibling k _ _ => k
  | right k _ _ => k
  | rightRead k _ _ _ => k
  | again k _ => k
  | indexSize k _ _ => k
  | indexLoop k _ _ _ _ => k
  | slot k _ _ _ => k
  | slotKey k _ _ _ _ => k
  | found k _ _ _ _ => k
  | done k _ => k
  | crashed k => k

/-- The node to which the call has moved. -/
def Reader.node : Reader → Option Nat
  | start _ => none
  | locate _ n => some n
  | inner _ n _ => some n
  | childSize _ n _ _ => some n
  | childLoop _ n _ _ _ => some n
  | childRead _ n _ _ => some n
  | leaf _ n => some n
  | highKey _ n _ => some n
  | sibling _ n _ => some n
  | right _ n _ => some n
  | rightRead _ n _ _ => some n
  | again _ n => some n
  | indexSize _ n _ => some n
  | indexLoop _ n _ _ _ => some n
  | slot _ n _ _ => some n
  | slotKey _ n _ _ _ => some n
  | found _ n _ _ _ => some n
  | done _ _ => none
  | crashed _ => none

/-- Where a writer is. `acquired` holds a node that it has not changed, `writing` is inside an
operation on its node and has the writes `rest` to do; `up` is what the operation returns.
`carrying` goes on with the pair `up` of a split, and `parent` has acquired a node for it.
`rooting` is inside `create_new_root` and `rooted` behind it, about to unlock the tree. -/
inductive Writer where
  | acquired (node : Nat)
  | writing (node : Nat) (rest : List (Nat × Write)) (up : Option (Nat × Nat))
  | carrying (separator key : Nat)
  | parent (node separator key : Nat)
  | rooting (root : Nat) (rest : List (Nat × Write))
  | rooted
  deriving DecidableEq

inductive Pc where
  | idle
  | reader (r : Reader)
  | writer (w : Writer)
  deriving DecidableEq

inductive Act where
  | find (key : Nat)
  | acquire (node : Nat)
  | insert (key : Nat) (value : Value)
  | update (key : Nat) (value : Value)
  | release
  | lockTree
  | go

/-- Behind the release of a node that was changed. -/
def resume : Option (Nat × Nat) → Pc
  | none => .idle
  | some (x, k) => .writer (.carrying x k)

/-- The state behind the first step of an operation on node `n`: its writes are still to do. -/
def Shared.begin (s : Shared) (n : Nat) (t : Tree) : Shared :=
  { s with tree := t, level := Slots.store s.level s.tree.count (s.level n) }

/-- The state behind the first step of `create_new_root`. -/
def Shared.beginRoot (s : Shared) (x k : Nat) : Shared :=
  { s with
    tree := s.tree.createNewRoot s.root x k
    locked := true
    level := Slots.store s.level s.tree.count (s.level s.root + 1) }

def Writer.next (c : Capacity) (s : Shared) : Writer → Act → Option (Shared × Pc)
  | .acquired n, .insert k v =>
      let (t, up) := s.tree.insertIntoLeaf c n k v
      some (s.begin n t,
        .writer (.writing n (insertIntoLeafWrites c s.memory n s.tree.count k v) up))
  | .acquired n, .update k v =>
      some (s.begin n (s.tree.setNode n ((s.tree.node n).updateValue c k v)),
        .writer (.writing n (updateWrites c s.memory n k v) none))
  | .acquired n, .release => some ({ s with toVersionedTree := s.unlock n }, .idle)
  | .writing n (w :: rest) up, .go =>
      some ({ s with memory := runWrite s.memory w }, .writer (.writing n rest up))
  | .writing n [] up, .go => some ({ s with toVersionedTree := s.unlock n }, resume up)
  | .carrying x k, .acquire n =>
      (s.lock n).map fun l => ({ s with toVersionedTree := l }, .writer (.parent n x k))
  | .parent n x k, .release =>
      some ({ s with toVersionedTree := s.unlock n }, .writer (.carrying x k))
  | .parent n x k, .go =>
      (s.tree.insertIntoInner c n k x).map fun r =>
        (s.begin n r.1,
          .writer (.writing n (insertIntoInnerWrites c s.memory n s.tree.count k x) r.2))
  | .carrying x k, .lockTree =>
      if s.locked then none
      else some (s.beginRoot x k,
        .writer (.rooting s.tree.count (createNewRootWrites s.memory s.tree.count s.root x k)))
  | .rooting root (w :: rest), .go =>
      some ({ s with memory := runWrite s.memory w }, .writer (.rooting root rest))
  | .rooting root [], .go => some ({ s with root := root }, .writer .rooted)
  | .rooted, .go => some ({ s with locked := false }, .idle)
  | _, _ => none

def next (c : Capacity) : Program Shared Pc Act Unit
  | s, .idle, .find k => some (s, .reader (.start k), none)
  | s, .idle, .acquire n =>
      (s.lock n).map fun l => ({ s with toVersionedTree := l }, .writer (.acquired n), none)
  | s, .reader (.done _ _), .go => some (s, .idle, none)
  | s, .reader r, .go => (r.next c s).map fun r => (s, .reader r, none)
  | s, .writer w, a => (w.next c s a).map fun r => (r.1, r.2, none)
  | _, _, _ => none

abbrev World := Interleaving.World Nat Shared Pc Unit

/-- The tree with one empty leaf, nobody in a call. -/
def init (raw : Nat → Memory) : World where
  shared :=
    { VersionedTree.empty raw with
      memory := (Tree.empty raw).node
      root := 0
      locked := false
      level := fun _ => 0 }
  thread := fun _ => .idle
  history := []

/-! ## The writers that a reader may meet -/

/-- The key is in the range of node `n`. -/
def InRange (t : Tree) (n k : Nat) : Prop := t.lowKey n ≤ k ∧ k < (t.node n).highKey

instance (t : Tree) (n k : Nat) : Decidable (InRange t n k) :=
  inferInstanceAs (Decidable (_ ∧ _))

/-- How often a node with version `current` was acquired since its free version was `v`. -/
def acquisitions (current v : Nat) : Nat := (current - v + 2) / 4

/-- An operation works on the node of its kind whose range contains its key; a separator goes
to a higher level than its own. Between a version and its comparison a node is acquired fewer
than `2 ^ 30` times. -/
def Valid (s : Shared) : Pc → Act → Prop
  | .idle, .find k => k < maxKey
  | _, .acquire n => n < s.tree.count
  | .writer (.acquired n), .insert k _ => (s.tree.node n).isLeaf = true ∧ InRange s.tree n k
  | .writer (.acquired n), .update k _ => (s.tree.node n).isLeaf = true ∧ InRange s.tree n k
  | .writer (.parent n x k), .go =>
      (s.tree.node n).isLeaf = false ∧ InRange s.tree n k ∧ s.level x < s.level n
  | .reader (.childRead _ n v _), .go => acquisitions (s.version n) v < 2 ^ 30
  | .reader (.rightRead _ n v _), .go => acquisitions (s.version n) v < 2 ^ 30
  | .reader (.found _ n v _ _), .go => acquisitions (s.version n) v < 2 ^ 30
  | _, _ => True

instance (s : Shared) (pc : Pc) (a : Act) : Decidable (Valid s pc a) := by
  unfold Valid
  split <;> infer_instance

/-- The node that an operation creates, as long as no one else can know it. -/
def Pc.builds : Pc → Option Nat
  | .writer (.writing _ _ up) => up.map Prod.fst
  | .writer (.rooting r _) => some r
  | _ => none

/-- Nobody acquires a node that is not yet in the tree. -/
def Known (_ : Shared) (_ : Pc) (a : Act) (other : Pc) : Prop :=
  match a with
  | .acquire n => other.builds ≠ some n
  | _ => True

instance (s : Shared) (pc : Pc) (a : Act) (other : Pc) : Decidable (Known s pc a other) := by
  unfold Known
  split <;> infer_instance

def Careful : World → Nat → Act → Prop := Apart Valid Known

end Fields

end BLinkTree.Optimistic

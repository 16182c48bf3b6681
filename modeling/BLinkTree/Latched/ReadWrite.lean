import BLinkTree.Latched.Program
import BLinkTree.Lib.UpgradeLock

/-! # The latched thread tree, reader-writer build

`thread/latched/thread_tree.cpp` in the build `blinktree_thread_rwlock`. A node is read under
`lock_shared` and written after `lock_upgrade`, which waits for other upgrades but not for
other readers. Every atomic operation of `RWSpinLock` is a step, and so is what a thread
reads or writes up to its next one. A thread that has upgraded never takes back its
reader: `unlock` clears the two low bits only.
-/

namespace BLinkTree.Latched.ReadWrite

open Linearization Interleaving UpgradeLock

/-- A tree and the latch word of every node. -/
structure LatchedTree where
  tree : Tree
  bits : Nat → BitVec 32

/-- What a thread is going to write when it has upgraded its latch. -/
inductive Work where
  | leaf (key : Nat) (value : Value) (path : List Nat) (node : Nat)
  | slot (key : Nat) (value : Value) (node index : Nat)
  | parent (o : Op) (path : List Nat) (node key separator : Nat)
  deriving DecidableEq

def Work.op : Work → Op
  | leaf k v _ _ => .insert k v
  | slot k v _ _ => .update k v
  | parent o _ _ _ _ => o

def Work.node : Work → Nat
  | leaf _ _ _ n => n
  | slot _ _ n _ => n
  | parent _ _ n _ _ => n

/-- `base` is between two latches, at the place where the spinlock build is; `shared` has its
node latched for reading; `backOff` has to take its reader back after a failed
`try_lock_shared`. `unlockShared` and `unlock` give the latch back and go on. -/
inductive Pc where
  | base (pc : Latched.Pc)
  | backOff (node : Nat) (pc : Latched.Pc)
  | shared (pc : Latched.Pc)
  | unlockShared (node : Nat) (after : Latched.Pc)
  | upgrade (w : Work)
  | write (w : Work)
  | unlock (node : Nat) (after : Latched.Pc)
  deriving DecidableEq

/-- `fetch_add(READER)` of `try_lock_shared`. -/
def lockShared (s : LatchedTree) (n : Nat) (pc : Latched.Pc) : LatchedTree × Pc :=
  ({ s with bits := Slots.store s.bits n (s.bits n + reader) },
    if isFree (s.bits n) then .shared pc else .backOff n pc)

/-- `fetch_add(-READER)`. -/
def unlockShared (s : LatchedTree) (n : Nat) : LatchedTree :=
  { s with bits := Slots.store s.bits n (s.bits n - reader) }

/-- `fetch_or(UPGRADED)` of `try_lock_upgrade`. -/
def lockUpgrade (s : LatchedTree) (w : Work) : LatchedTree × Pc :=
  ({ s with bits := Slots.store s.bits w.node (s.bits w.node ||| upgraded) },
    if isFree (s.bits w.node) then .write w else .upgrade w)

/-- `fetch_and(~(WRITER | UPGRADED))`. -/
def unlock (s : LatchedTree) (n : Nat) : LatchedTree :=
  { s with bits := Slots.store s.bits n (s.bits n &&& ~~~(writer ||| upgraded)) }

/-- What a call does with its leaf while it holds the shared latch, with the result if this
completes it. -/
def readLeaf (c : Capacity) (t : Tree) (o : Op) (path : List Nat) (n : Nat) :
    Pc × Option Value :=
  match o with
  | .insert k v => (.upgrade (.leaf k v path n), none)
  | .update k v =>
      let index := (t.node n).index k
      if (t.node n).leafKey c index = k then (.upgrade (.slot k v n index), none)
      else (.unlockShared n (.done o 0), some 0)
  | .find k =>
      (.unlockShared n (.done o ((t.node n).findValue c k)), some ((t.node n).findValue c k))

/-- What a call writes under the upgraded latch. -/
def doWork (c : Capacity) (t : Tree) : Work →
    Option (Tree × Latched.Pc × Option (Event Op Value))
  | .leaf k v path n =>
      let (t, up) := t.insertIntoLeaf c n k v
      some (t, propagate (.insert k v) path up, some (.effect (.insert k v) 0))
  | .slot k v n index =>
      some (t.setNode n ((t.node n).setValue index v), .done (.update k v) 0,
        some (.effect (.update k v) 0))
  | .parent o path n k x =>
      (t.insertIntoInner c n k x).map fun r => (r.1, propagate o path r.2, none)

def next (c : Capacity) : Program LatchedTree Pc Act (Event Op Value)
  | s, .base .idle, .call o => some (s, .base (.start o), some (.invoke o))
  | s, .base (.start o), .go => some (s, .base (enter s.tree o [] (some s.tree.root)), none)
  | s, .base (.inner o path n), .go =>
      let (s, pc) := lockShared s n (.inner o path n)
      some (s, pc, none)
  | s, .base (.leaf o path n), .go =>
      let (s, pc) := lockShared s n (.leaf o path n)
      some (s, pc, none)
  | s, .base (.parent o path n k x), .go =>
      let (s, pc) := lockShared s n (.parent o path n k x)
      some (s, pc, none)
  | s, .backOff n pc, .go => some (unlockShared s n, .base pc, none)
  | s, .shared (.inner o path n), .go =>
      if (s.tree.node n).highKey ≤ o.key then
        some (s, .unlockShared n (moveRight s.tree n o (.inner o path)), none)
      else
        some (s, .unlockShared n (enter s.tree o (push o path n) ((s.tree.node n).child o.key)),
          none)
  | s, .shared (.leaf o path n), .go =>
      if (s.tree.node n).highKey ≤ o.key then
        some (s, .unlockShared n (moveRight s.tree n o (.leaf o path)), none)
      else
        let (pc, r) := readLeaf c s.tree o path n
        some (s, pc, r.map (.effect o))
  | s, .shared (.parent o path n k x), .go =>
      if (s.tree.node n).highKey ≤ k then
        some (s, .unlockShared n (moveRight s.tree n o fun r => .parent o path r k x), none)
      else some (s, .upgrade (.parent o path n k x), none)
  | s, .unlockShared n pc, .go => some (unlockShared s n, .base pc, none)
  | s, .upgrade w, .go =>
      let (s, pc) := lockUpgrade s w
      some (s, pc, none)
  | s, .write w, .go =>
      match doWork c s.tree w with
      | none => some (s, .base (.crashed w.op), none)
      | some (t, pc, e) => some ({ s with tree := t }, .unlock w.node pc, e)
  | s, .unlock n pc, .go => some (unlock s n, .base pc, none)
  | s, .base (.newRoot o k x), .go =>
      some ({ s with tree := s.tree.createNewRoot s.tree.root x k }, .base (.done o 0), none)
  | s, .base (.done o r), .go => some (s, .base .idle, some (.ret o r))
  | _, _, _ => none

abbrev World := Interleaving.World Nat LatchedTree Pc (Event Op Value)

def init (memory : Nat → Memory) : World where
  shared := ⟨Tree.empty memory, fun _ => 0⟩
  thread := fun _ => .base .idle
  history := []

def Work.status : Work → Status Op Value
  | leaf k v _ _ => .called (.insert k v)
  | slot k v _ _ => .called (.update k v)
  | parent o _ _ _ _ => .applied o 0

def Pc.status : Pc → Status Op Value
  | base pc => pc.status
  | backOff _ pc => pc.status
  | shared pc => pc.status
  | unlockShared _ pc => pc.status
  | upgrade w => w.status
  | write w => w.status
  | unlock _ pc => pc.status

/-! ## Writes that overtake another thread -/

/-- The insert of `k` into leaf `n` moves the slot `index`, or key `q` out of the leaf. -/
def Displaces (c : Capacity) (t : Tree) (k : Nat) (v : Value) (n q index : Nat) : Prop :=
  ¬ ((t.node n).index k < (t.node n).size ∧ (t.node n).keys ((t.node n).index k) = k) ∧
    ((t.node n).index k ≤ index ∨
      (t.node n).isFull c = true ∧ (t.leafHalves c n k v).2.keys 0 ≤ q)

instance (c : Capacity) (t : Tree) (k : Nat) (v : Value) (n q index : Nat) :
    Decidable (Displaces c t k v n q index) :=
  inferInstanceAs (Decidable (_ ∧ (_ ∨ _ ∧ _)))

/-- The first write invalidates what the second thread has read of the same node. -/
def Disturbs (c : Capacity) (t : Tree) : Work → Work → Prop
  | .leaf k v _ n, .leaf q _ _ m => n = m ∧ CutsOff c t (.insert k v) n q
  | .leaf k v _ n, .slot q _ m index => n = m ∧ Displaces c t k v n q index
  | .parent _ _ n k x, .parent _ _ m q _ =>
      n = m ∧ (t.node n).isFull c = true ∧ (t.innerHalves c n k x).2.2 ≤ q
  | _, _ => False

instance (c : Capacity) (t : Tree) (w w' : Work) : Decidable (Disturbs c t w w') := by
  unfold Disturbs
  split <;> infer_instance

/-- The step is no write that invalidates what a thread has read that waits for its
upgrade. -/
def Harmless (c : Capacity) (s : LatchedTree) (pc : Pc) (_ : Act) (other : Pc) : Prop :=
  match pc, other with
  | .write w, .upgrade w' => ¬ Disturbs c s.tree w w'
  | _, _ => True

instance (c : Capacity) (s : LatchedTree) (pc : Pc) (a : Act) (other : Pc) :
    Decidable (Harmless c s pc a other) := by
  unfold Harmless
  split <;> infer_instance

def Careful (c : Capacity) : World → Nat → Act → Prop :=
  Apart (fun _ _ a => a.Valid) (Harmless c)

end BLinkTree.Latched.ReadWrite

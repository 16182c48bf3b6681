import BLinkTree.Calls

/-! # The latched thread tree, spinlock build

`thread/latched/thread_tree.cpp` in the build `blinktree_thread_spinlock`. Every
latch is exclusive and a thread holds at most one, so a thread moves in sections: it
takes the latch of one node, reads or changes the node and gives the latch back. The
node path is a list with the last pushed node first.
-/

namespace BLinkTree.Latched

open Linearization Interleaving

/-- Where a thread is between two sections. `inner`, `leaf` and `parent` are about to
latch their node: in the loop over the inner nodes of `locate_leaf`, in the leaf part
of it, and in the propagation loop of `insert`. -/
inductive Pc where
  | idle
  | start (o : Op)
  | inner (o : Op) (path : List Nat) (node : Nat)
  | leaf (o : Op) (path : List Nat) (node : Nat)
  | parent (o : Op) (path : List Nat) (node key separator : Nat)
  | newRoot (o : Op) (key separator : Nat)
  | done (o : Op) (result : Value)
  | crashed (o : Op)
  deriving DecidableEq

inductive Act where
  | call (o : Op)
  | go

/-- `find` calls `locate_leaf` without a path. -/
def push (o : Op) (path : List Nat) (node : Nat) : List Nat :=
  match o with
  | .find _ => path
  | _ => node :: path

/-- The test of the loop of `locate_leaf`. -/
def enter (t : Tree) (o : Op) (path : List Nat) : Option Nat → Pc
  | none => .crashed o
  | some n => if (t.node n).isLeaf then .leaf o path n else .inner o path n

/-- Follow `right_sibling`. -/
def moveRight (t : Tree) (n : Nat) (o : Op) (pc : Nat → Pc) : Pc :=
  match (t.node n).rightSibling with
  | none => .crashed o
  | some r => pc r

/-- The loop test of the propagation and the test behind it. -/
def propagate (o : Op) (path : List Nat) : Option (Nat × Nat) → Pc
  | none => .done o 0
  | some (x, s) =>
      match path with
      | [] => .newRoot o s x
      | p :: ps => .parent o ps p s x

/-- What `insert`, `update` and `find` do with the leaf that `locate_leaf` returned. -/
def leafSection (c : Capacity) (t : Tree) (o : Op) (path : List Nat) (n : Nat) :
    Tree × Pc × Value :=
  match o with
  | .insert k v =>
      let (t, up) := t.insertIntoLeaf c n k v
      (t, propagate o path up, 0)
  | .update k v => (t.setNode n ((t.node n).updateValue c k v), .done o 0, 0)
  | .find k => (t, .done o ((t.node n).findValue c k), (t.node n).findValue c k)

/-- One section of a thread. -/
def next (c : Capacity) : Program Tree Pc Act (Event Op Value)
  | t, .idle, .call o => some (t, .start o, some (.invoke o))
  | t, .start o, .go => some (t, enter t o [] (some t.root), none)
  | t, .inner o path n, .go =>
      if (t.node n).highKey ≤ o.key then some (t, moveRight t n o (.inner o path), none)
      else some (t, enter t o (push o path n) ((t.node n).child o.key), none)
  | t, .leaf o path n, .go =>
      if (t.node n).highKey ≤ o.key then some (t, moveRight t n o (.leaf o path), none)
      else
        let (t, pc, r) := leafSection c t o path n
        some (t, pc, some (.effect o r))
  | t, .parent o path n s x, .go =>
      if (t.node n).highKey ≤ s then some (t, moveRight t n o fun r => .parent o path r s x, none)
      else
        match t.insertIntoInner c n s x with
        | none => some (t, .crashed o, none)
        | some (t, up) => some (t, propagate o path up, none)
  | t, .newRoot o s x, .go => some (t.createNewRoot t.root x s, .done o 0, none)
  | t, .done o r, .go => some (t, .idle, some (.ret o r))
  | _, _, _ => none

/-- Keys below the largest one, which stands for infinity. -/
def Act.Valid : Act → Prop
  | call o => o.key < maxKey
  | go => True

instance : (a : Act) → Decidable a.Valid
  | .call o => inferInstanceAs (Decidable (o.key < maxKey))
  | .go => inferInstanceAs (Decidable True)

abbrev World := Interleaving.World Nat Tree Pc (Event Op Value)

/-- A fresh tree and idle threads. -/
def init (memory : Nat → Memory) : World where
  shared := Tree.empty memory
  thread := fun _ => .idle
  history := []

/-- How far the call of a thread is. -/
def Pc.status : Pc → Status Op Value
  | idle => .idle
  | start o => .called o
  | inner o _ _ => .called o
  | leaf o _ _ => .called o
  | parent o _ _ _ _ => .applied o 0
  | newRoot o _ _ => .applied o 0
  | done o r => .applied o r
  | crashed o => .called o

/-- The pair `up` that a thread carries. -/
def Pc.carried : Pc → Option (Nat × Nat)
  | parent _ _ _ s x => some (x, s)
  | newRoot _ s x => some (x, s)
  | _ => none

end BLinkTree.Latched

import BLinkTree.Lib.Coupling
import BLinkTree.Lib.Refinement
import BLinkTree.Olc.Structure

/-! # The threads of the B-tree

`insert`, `lookup` and `scan` of `btree_olc.h`, step by step. A reader takes no lock. It reads the
version of a page, then the page, and compares the version later, when it has read the version
of the next page. What it reads of a page whose version has moved is some value that the step
is given, because a writer may be at work. What a writer does under its locks is one step.
-/

namespace BtreeOlc

open Slots Linearization Interleaving VersionLock

variable {κ β : Type}

inductive Op (κ β : Type) where
  | insert (k : κ) (v : β)
  | lookup (k : κ)
  | scan (k : κ) (range : Int)
  deriving DecidableEq

def Op.key : Op κ β → κ
  | insert k _ => k
  | lookup k => k
  | scan k _ => k

/-- What a call returns: for `lookup` the flag and what stands in `result`, for `scan` the
first part of `output`. -/
inductive Result (β : Type) where
  | inserted
  | found (success : Bool) (result : Option β)
  | scanned (output : List β)
  deriving DecidableEq

/-- What a reader sees of a page that changes, and what is in variables that nobody has set. -/
structure Race (β : Type) where
  full : Bool
  child : Nat
  result : Result β
  success : Bool
  unset : Option β

inductive Act (κ β : Type) where
  | call (o : Op κ β)
  | go (race : Race β)

/-- Where a thread is.

`start` reads the root, `rootVersion` its version and `rootCheck` the root again. `enter` is the
head of the loop with the test for a full page; `checkParent`, `child`, `checkChild` and
`childVersion` are the rest of the loop. `lockParent`, `lockNode` and `checkRoot` lead to the
`split`. `lockLeaf` and `checkLeafParent` lead to the `write`. `unlock` gives one lock back and has
more to give back. `search` is the leaf part of `lookup` and `scan`, `leave` the last
comparison for the parent and `validate` the one for the leaf. -/
inductive Pc (κ β : Type) where
  | idle
  | start (o : Op κ β)
  | rootVersion (o : Op κ β) (n : Nat)
  | rootCheck (o : Op κ β) (n v : Nat)
  | enter (o : Op κ β) (n v : Nat) (parent : Option (Nat × Nat))
  | checkParent (o : Op κ β) (n v p w : Nat)
  | child (o : Op κ β) (n v : Nat)
  | checkChild (o : Op κ β) (n v m : Nat)
  | childVersion (o : Op κ β) (n v m : Nat)
  | lockParent (o : Op κ β) (n v p w : Nat)
  | lockNode (o : Op κ β) (n v : Nat) (parent : Option Nat)
  | checkRoot (o : Op κ β) (n : Nat)
  | split (o : Op κ β) (n : Nat) (parent : Option Nat)
  | lockLeaf (o : Op κ β) (n v : Nat) (parent : Option (Nat × Nat))
  | checkLeafParent (o : Op κ β) (n p w : Nat)
  | write (o : Op κ β) (n : Nat)
  | unlock (o : Op κ β) (n : Nat) (more : Option Nat) (result : Option (Result β))
  | search (o : Op κ β) (n v : Nat) (parent : Option (Nat × Nat))
  | leave (o : Op κ β) (n v p w : Nat) (result : Result β)
  | validate (o : Op κ β) (n v : Nat) (result : Result β)
  | done (o : Op κ β) (result : Result β)
  | crashed (o : Op κ β)
  deriving DecidableEq

/-- `readUnlockOrRestart` finds the version it was given. -/
def BTree.isCurrent (s : BTree κ β) (n v : Nat) : Bool := agrees (2 ^ 64) (s.version n) v

/-- `isObsolete`. -/
def isObsolete (v : Nat) : Bool := decide (v % 2 = 1)

/-- `readLockOrRestart` on the page that a pointer names. -/
def BTree.readLock (s : BTree κ β) (o : Op κ β) (n : Nat) (pc : Nat → Pc κ β) : Pc κ β :=
  if s.allocated ≤ n then .crashed o
  else if isLocked (s.version n) || isObsolete (s.version n) then .start o
  else pc (s.version n)

/-- Behind the last `writeUnlock`. -/
def resume (o : Op κ β) : Option (Result β) → Pc κ β
  | none => .start o
  | some r => .done o r

/-- Lock the parent first, if there is one. -/
def lockPath (o : Op κ β) (n v : Nat) : Option (Nat × Nat) → Pc κ β
  | none => .lockNode o n v none
  | some (p, w) => .lockParent o n v p w

/-- Compare the version of the parent, if there is one. -/
def check (o : Op κ β) (n v : Nat) : Option (Nat × Nat) → Pc κ β
  | none => .child o n v
  | some (p, w) => .checkParent o n v p w

variable [LinearOrder κ]

/-- `write` is reached by inserts only. -/
def Op.write (o : Op κ β) (nd : Node κ β) : Node κ β :=
  match o with
  | .insert k v => nd.leafInsert k v
  | _ => nd

/-- The leaf part of `lookup` and `scan`. -/
def Op.read (o : Op κ β) (nd : Node κ β) (race : Race β) : Result β :=
  match o with
  | .insert _ _ => .inserted
  | .lookup k =>
      match nd.get k with
      | some v => .found true (some v)
      | none => .found race.success race.unset
  | .scan k range => .scanned (nd.scan k range)

/-- Behind the test of the page's type. -/
def enter (o : Op κ β) (n v : Nat) (parent : Option (Nat × Nat)) (type : PageType) (full : Bool) :
    Pc κ β :=
  match o, type with
  | .insert _ _, .inner => if full then lockPath o n v parent else check o n v parent
  | .insert _ _, .leaf => if full then lockPath o n v parent else .lockLeaf o n v parent
  | _, .inner => check o n v parent
  | _, .leaf => .search o n v parent

def next (c : PageSize) :
    Program (BTree κ β) (Pc κ β) (Act κ β) (Event (Op κ β) (Result β))
  | s, .idle, .call o => some (s, .start o, some (.invoke o))
  | s, .start o, .go _ => some (s, .rootVersion o s.root, none)
  | s, .rootVersion o n, .go _ => some (s, s.readLock o n fun v => .rootCheck o n v, none)
  | s, .rootCheck o n v, .go _ =>
      if n = s.root then some (s, .enter o n v none, none) else some (s, .start o, none)
  | s, .enter o n v parent, .go race =>
      let full := if s.version n = v then (s.node n).isFull c else race.full
      some (s, enter o n v parent (s.node n).type full, none)
  | s, .checkParent o n v p w, .go _ =>
      if s.isCurrent p w then some (s, .child o n v, none) else some (s, .start o, none)
  | s, .child o n v, .go race =>
      let m := if s.version n = v then (s.node n).child o.key else race.child
      some (s, .checkChild o n v m, none)
  | s, .checkChild o n v m, .go _ =>
      if s.isCurrent n v then some (s, .childVersion o n v m, none) else some (s, .start o, none)
  | s, .childVersion o n v m, .go _ =>
      some (s, s.readLock o m fun w => .enter o m w (some (n, v)), none)
  | s, .lockParent o n v p w, .go _ =>
      if s.isCurrent p w then some (s.lock p, .lockNode o n v (some p), none)
      else some (s, .start o, none)
  | s, .lockNode o n v parent, .go _ =>
      if s.isCurrent n v then
        match parent with
        | none => some (s.lock n, .checkRoot o n, none)
        | some p => some (s.lock n, .split o n (some p), none)
      else
        match parent with
        | none => some (s, .start o, none)
        | some p => some (s, .unlock o p none none, none)
  | s, .checkRoot o n, .go _ =>
      if n = s.root then some (s, .split o n none, none)
      else some (s, .unlock o n none none, none)
  | s, .split o n parent, .go _ => some (s.split n parent, .unlock o n parent none, none)
  | s, .lockLeaf o n v parent, .go _ =>
      if s.isCurrent n v then
        match parent with
        | none => some (s.lock n, .write o n, none)
        | some (p, w) => some (s.lock n, .checkLeafParent o n p w, none)
      else some (s, .start o, none)
  | s, .checkLeafParent o n p w, .go _ =>
      if s.isCurrent p w then some (s, .write o n, none)
      else some (s, .unlock o n none none, none)
  | s, .write o n, .go _ =>
      some (s.setNode n (o.write (s.node n)), .unlock o n none (some .inserted),
        some (.effect o .inserted))
  | s, .unlock o n more r, .go _ =>
      match more with
      | none => some (s.unlock n, resume o r, none)
      | some m => some (s.unlock n, .unlock o m none r, none)
  | s, .search o n v parent, .go race =>
      let r := if s.version n = v then o.read (s.node n) race else race.result
      match parent with
      | none => some (s, .validate o n v r, none)
      | some (p, w) => some (s, .leave o n v p w r, none)
  | s, .leave o n v p w r, .go _ =>
      if s.isCurrent p w then some (s, .validate o n v r, none) else some (s, .start o, none)
  | s, .validate o n v r, .go _ =>
      if s.isCurrent n v then some (s, .done o r, some (.effect o r))
      else some (s, .start o, none)
  | s, .done o r, .go _ => some (s, .idle, some (.ret o r))
  | _, _, _ => none

abbrev World (κ β : Type) :=
  Interleaving.World Nat (BTree κ β) (Pc κ β) (Event (Op κ β) (Result β))

def init (memory : Nat → Node κ β) : World κ β where
  shared := BTree.create memory
  thread := fun _ => .idle
  history := []

/-- A page of zeros. -/
def Node.zero : Node Nat Nat := ⟨.leaf, 0, fun _ => 0, fun _ => 0, fun _ => 0⟩

def Pc.status : Pc κ β → Status (Op κ β) (Result β)
  | idle => .idle
  | start o => .called o
  | rootVersion o _ => .called o
  | rootCheck o _ _ => .called o
  | enter o _ _ _ => .called o
  | checkParent o _ _ _ _ => .called o
  | child o _ _ => .called o
  | checkChild o _ _ _ => .called o
  | childVersion o _ _ _ => .called o
  | lockParent o _ _ _ _ => .called o
  | lockNode o _ _ _ => .called o
  | checkRoot o _ => .called o
  | split o _ _ => .called o
  | lockLeaf o _ _ _ => .called o
  | checkLeafParent o _ _ _ => .called o
  | write o _ => .called o
  | unlock o _ _ none => .called o
  | unlock o _ _ (some r) => .applied o r
  | search o _ _ _ => .called o
  | leave o _ _ _ _ _ => .called o
  | validate o _ _ _ => .called o
  | done o r => .applied o r
  | crashed o => .called o

/-- The versions the thread will compare. -/
def Pc.versions : Pc κ β → List (Nat × Nat)
  | rootCheck _ n v => [(n, v)]
  | enter _ n v parent => (n, v) :: parent.toList
  | checkParent _ n v p w => [(n, v), (p, w)]
  | child _ n v => [(n, v)]
  | checkChild _ n v _ => [(n, v)]
  | childVersion _ n v _ => [(n, v)]
  | lockParent _ n v p w => [(n, v), (p, w)]
  | lockNode _ n v _ => [(n, v)]
  | lockLeaf _ n v parent => (n, v) :: parent.toList
  | checkLeafParent _ _ p w => [(p, w)]
  | search _ n v parent => (n, v) :: parent.toList
  | leave _ n v p w _ => [(n, v), (p, w)]
  | validate _ n v _ => [(n, v)]
  | _ => []

/-- No page is locked and unlocked `2 ^ 62` times while the thread remembers a version of it: each of
the two adds two to the version. -/
def Recent (w : World κ β) (i : Nat) (_ : Act κ β) : Prop :=
  ∀ x ∈ (w.thread i).versions, w.shared.version x.1 < x.2 + 2 ^ 64

instance (w : World κ β) (i : Nat) (a : Act κ β) : Decidable (Recent w i a) :=
  inferInstanceAs (Decidable (∀ x ∈ (w.thread i).versions, _))

/-- The map that the tree implements. `lookup` promises nothing about a key without a
binding, because then it sets neither the flag nor `result`. `scan` ends where a leaf ends. -/
def map (κ β : Type) [LinearOrder κ] : Object (κ → Option β) (Op κ β) (Result β) where
  init := fun _ => none
  apply m o :=
    match o with
    | .insert k v => Function.update m k (some v)
    | _ => m
  allows m o r :=
    match o with
    | .insert _ _ => r = .inserted
    | .lookup k => (∃ success result, r = .found success result) ∧
        ∀ v, m k = some v → r = .found true (some v)
    | .scan k range => ∃ ks out, r = .scanned out ∧ Node.Reads m k range ks out

end BtreeOlc

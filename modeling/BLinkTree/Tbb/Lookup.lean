import BLinkTree.Tbb.Olfit

/-! # Lookups in the TBB build with optimistic latches

`LookupTask::execute` of the build `blinktree_tbb_olfit`, one read a step, beside the tasks
for inserts and updates and beside other lookups. When the comparison of the version fails
behind `right_sibling` or `child`, the round is not started again but goes on with the code
for leaves. `_value` is stored before the last comparison and keeps what it got in a round
that fails.
-/

namespace BLinkTree.Tbb.Olfit

open Linearization Interleaving VersionLock

/-- What the accessors of a leaf read where a node has no such slot: behind its arrays, and for
the values of an inner node. -/
structure Overlay where
  key : Node → Nat → Nat
  value : Node → Nat → Value

/-- `Node::leaf_key(index)`. Both kinds of nodes have their keys in the same place. -/
def leafKey (overlay : Overlay) (c : Capacity) (n : Node) (index : Nat) : Nat :=
  if index < n.capacity c then n.keys index else overlay.key n index

/-- `Node::value(index)`. -/
def leafValue (overlay : Overlay) (c : Capacity) (n : Node) (index : Nat) : Value :=
  if n.isLeaf = true ∧ index < c.maxItems then n.values index else overlay.value n index

/-- What the tests at the top of a round have found: the high key is not above the key, or it
is and the node is an inner node or a leaf. -/
inductive Branch where
  | right
  | child
  | leaf
  deriving DecidableEq

/-- The next step of a lookup. `highKey` are the tests at the top, `rightRead`, `childRead` and
`last` compare the version. The code for leaves keeps the branch that the tests have taken. -/
inductive Spot where
  | version
  | highKey (version : Nat)
  | right (version : Nat)
  | rightRead (version : Nat) (next : Option Nat)
  | child (version : Nat)
  | childRead (version : Nat) (next : Option Nat)
  | index (version : Nat) (branch : Branch)
  | leafKey (version : Nat) (branch : Branch) (index : Nat)
  | value (version : Nat) (branch : Branch) (index : Nat)
  | last (version : Nat) (branch : Branch)
  | done
  deriving DecidableEq

/-- `LookupTask` with the node it is executed on; `value` is the member `_value`. -/
structure Lookup where
  key : Nat
  node : Nat
  value : Value
  spot : Spot
  deriving DecidableEq

namespace Lookup

/-- A new task starts at the root. -/
def create (s : VersionedTree) (key : Nat) : Lookup := ⟨key, s.tree.root, 0, .version⟩

/-- What `NodeTask::execute` does with a returned node: null is the end of the task. -/
def return' (x : Lookup) : Option Nat → Lookup
  | none => { x with spot := .done }
  | some n => { x with node := n, spot := .version }

/-- `LookupTask::execute`. -/
def next (overlay : Overlay) (c : Capacity) (s : VersionedTree) (x : Lookup) : Option Lookup :=
  match x.spot with
  | .version => (s.readValid x.node).map fun v => { x with spot := .highKey v }
  | .highKey v =>
      if (s.tree.node x.node).highKey ≤ x.key then some { x with spot := .right v }
      else if (s.tree.node x.node).isLeaf = false then some { x with spot := .child v }
      else some { x with spot := .index v .leaf }
  | .right v => some { x with spot := .rightRead v (s.tree.node x.node).rightSibling }
  | .rightRead v r =>
      if isValid (s.version x.node) v then some (x.return' r)
      else some { x with spot := .index v .right }
  | .child v => some { x with spot := .childRead v ((s.tree.node x.node).child x.key) }
  | .childRead v r =>
      if isValid (s.version x.node) v then some (x.return' r)
      else some { x with spot := .index v .child }
  | .index v b => some { x with spot := .leafKey v b ((s.tree.node x.node).index x.key) }
  | .leafKey v b j =>
      if Olfit.leafKey overlay c (s.tree.node x.node) j = x.key then
        some { x with spot := .value v b j }
      else some { x with spot := .last v b }
  | .value v b j =>
      some { x with value := leafValue overlay c (s.tree.node x.node) j, spot := .last v b }
  | .last v _ =>
      if isValid (s.version x.node) v then some (x.return' none)
      else some { x with spot := .version }
  | .done => none

def status (x : Lookup) : Status Op Value :=
  if x.spot = .done then .applied (.find x.key) x.value else .called (.find x.key)

/-- The end of the task is its effect. -/
def effect (x : Lookup) : Option (Event Op Value) :=
  if x.spot = .done then some (.effect (.find x.key) x.value) else none

/-- In front of the comparison behind `right_sibling` or `child`, no writer has come to the
node since the version was read; a slot with the key is compared only if the tree has the
key; and the last comparison is not taken in by a counter that came around. -/
def Valid (overlay : Overlay) (c : Capacity) (s : VersionedTree) (x : Lookup) : Prop :=
  match x.spot with
  | .rightRead v _ => s.version x.node = v
  | .childRead v _ => s.version x.node = v
  | .leafKey _ _ j => Olfit.leafKey overlay c (s.tree.node x.node) j = x.key →
      (OrderedMap.get? x.key s.tree.content).isSome
  | .last v _ => ¬ Wraps (s.version x.node) v
  | _ => True

instance (overlay : Overlay) (c : Capacity) (s : VersionedTree) (x : Lookup) :
    Decidable (x.Valid overlay c s) := by
  unfold Valid
  split <;> infer_instance

end Lookup

/-! ## Lookups beside the other tasks -/

/-- A thread is at an insert or an update, or at a lookup. -/
inductive Site where
  | task (pc : Pc)
  | lookup (x : Lookup)

inductive Move where
  | task (a : Act)
  | find (key : Nat)
  | go

namespace Site

def next (overlay : Overlay) (c : Capacity) : Program VersionedTree Site Move (Event Op Value)
  | s, .task pc, .task a => (Olfit.next c s pc a).map fun r => (r.1, .task r.2.1, r.2.2)
  | s, .task .idle, .find k => some (s, .lookup (.create s k), some (.invoke (.find k)))
  | s, .lookup x, .go =>
      if x.spot = .done then some (s, .task .idle, some (.ret (.find x.key) x.value))
      else (x.next overlay c s).map fun y => (s, .lookup y, y.effect)
  | _, _, _ => none

abbrev World := Interleaving.World Nat VersionedTree Site (Event Op Value)

def init (memory : Nat → Memory) : World where
  shared := VersionedTree.empty memory
  thread := fun _ => .task .idle
  history := []

def status : Site → Status Op Value
  | .task pc => pc.status
  | .lookup x => x.status

def Valid (overlay : Overlay) (c : Capacity) (s : VersionedTree) : Site → Move → Prop
  | .task pc, .task a => Olfit.Valid s pc a
  | .lookup x, _ => x.Valid overlay c s
  | _, _ => True

instance (overlay : Overlay) (c : Capacity) (s : VersionedTree) (x : Site) (a : Move) :
    Decidable (Valid overlay c s x a) := by
  unfold Valid
  split <;> infer_instance

/-- The step cuts no key off a leaf for which another task has left its loop. -/
def Harmless (c : Capacity) (s : VersionedTree) : Site → Move → Site → Prop
  | .task pc, .task a, .task other => Olfit.Harmless c s pc a other
  | _, _, _ => True

instance (c : Capacity) (s : VersionedTree) (x : Site) (a : Move) (other : Site) :
    Decidable (Harmless c s x a other) := by
  unfold Harmless
  split <;> infer_instance

def Careful (overlay : Overlay) (c : Capacity) : World → Nat → Move → Prop :=
  Apart (Valid overlay c) (Harmless c)

end Site

variable {overlay : Overlay} {c : Capacity} {s s' : VersionedTree} {l l' : Latches Nat}
  {g : Ghost Nat} {x y : Lookup} {i n v k : Nat}

/-! ## What a lookup knows -/

/-- The version of the round. -/
def Spot.seen : Spot → Option Nat
  | .version => none
  | .highKey v => some v
  | .right v => some v
  | .rightRead v _ => some v
  | .child v => some v
  | .childRead v _ => some v
  | .index v _ => some v
  | .leafKey v _ _ => some v
  | .value v _ _ => some v
  | .last v _ => some v
  | .done => none

/-- The branch with which a round runs the code for leaves. -/
def Spot.branch : Spot → Option Branch
  | .index _ b => some b
  | .leafKey _ b _ => some b
  | .value _ b _ => some b
  | .last _ b => some b
  | _ => none

/-- What is true of the node as long as its version stands. -/
def Lookup.Fact (overlay : Overlay) (c : Capacity) (x : Lookup) (nd : Node) : Prop :=
  match x.spot with
  | .right _ => nd.highKey ≤ x.key
  | .rightRead _ r => nd.highKey ≤ x.key ∧ r = nd.rightSibling
  | .child _ => nd.isLeaf = false
  | .childRead _ r => nd.isLeaf = false ∧ r = nd.child x.key
  | .index _ _ => x.key < nd.highKey
  | .leafKey _ _ j => x.key < nd.highKey ∧ j = nd.index x.key
  | .value _ _ j => x.key < nd.highKey ∧ j = nd.index x.key
  | .last _ _ => x.key < nd.highKey ∧
      (leafKey overlay c nd (nd.index x.key) = x.key →
        x.value = leafValue overlay c nd (nd.index x.key))
  | _ => True

/-- The task has a value or is about to store one. -/
def Lookup.Hits (x : Lookup) : Prop := x.value ≠ 0 ∨ ∃ v b j, x.spot = .value v b j

structure Lookup.Holds (overlay : Overlay) (c : Capacity) (s : VersionedTree) (g : Ghost Nat)
    (x : Lookup) : Prop where
  reached : Reached s.tree g x.node x.key
  bound : x.Hits → (OrderedMap.get? x.key s.tree.content).isSome
  leaf : ∀ b, x.spot.branch = some b → b = .leaf ∧ (s.tree.node x.node).isLeaf = true
  fact : ∀ v, x.spot.seen = some v →
    Snapshot s.version x.node v (x.Fact overlay c (s.tree.node x.node))

/-- A bound key stays bound. -/
theorem isSome_of_simulates {m m' : List (Nat × Value)} {a b : Status Op Value}
    {e : Option (Event Op Value)} (h : Simulates finiteMap m m' a b e)
    (hk : (OrderedMap.get? k m).isSome) : (OrderedMap.get? k m').isSome := by
  cases e with
  | none =>
      rw [h.1]
      exact hk
  | some e =>
      rw [h.2.1]
      cases e with
      | invoke o => exact hk
      | effect o r => exact finiteMap_bound_apply o hk
      | ret o r => exact hk

/-- A lookup keeps what it knows when another thread moves. -/
theorem Lookup.Holds.interferes (h : x.Holds overlay c s l.ghost)
    (hheld : Held s.version l.holder) (hs : Interferes i s l s' l')
    (hbound : (OrderedMap.get? x.key s.tree.content).isSome →
      (OrderedMap.get? x.key s'.tree.content).isSome) : x.Holds overlay c s' l'.ghost where
  reached := h.reached.evolves hs.evolves
  bound hhit := hbound (h.bound hhit)
  leaf b hb := by
    rw [hs.evolves.isLeaf_eq x.node h.reached.lt_count]
    exact h.leaf b hb
  fact v hv := hs.snapshot hheld h.reached.lt_count (h.fact v hv)

/-- A step within the node that stores nothing. -/
theorem Lookup.Holds.move {p : Spot} (h : x.Holds overlay c s g)
    (hhit : ∀ v b j, p = .value v b j → (OrderedMap.get? x.key s.tree.content).isSome)
    (hleaf : ∀ b, p.branch = some b → b = .leaf ∧ (s.tree.node x.node).isLeaf = true)
    (hfact : ∀ v, p.seen = some v → Snapshot s.version x.node v
      (Lookup.Fact overlay c { x with spot := p } (s.tree.node x.node))) :
    Lookup.Holds overlay c s g { x with spot := p } where
  reached := h.reached
  bound hhits := by
    rcases hhits with hne | ⟨v, b, j, hp⟩
    · exact h.bound (Or.inl hne)
    · exact hhit v b j hp
  leaf := hleaf
  fact := hfact

/-! ## One step of a lookup -/

/-- What one step of a lookup leaves. -/
structure Lookup.Advanced (overlay : Overlay) (c : Capacity) (s : VersionedTree) (g : Ghost Nat)
    (x y : Lookup) : Prop where
  holds : y.Holds overlay c s g
  key_eq : y.key = x.key
  result : y.spot = .done → y.value = (OrderedMap.get? x.key s.tree.content).getD 0

/-- A step within a round. -/
theorem Lookup.Holds.look {p : Spot} (h : x.Holds overlay c s g) (hx : x.spot.seen = some v)
    (hp : p.seen = some v)
    (hhit : ∀ v b j, p = .value v b j → (OrderedMap.get? x.key s.tree.content).isSome)
    (hleaf : ∀ b, p.branch = some b → b = .leaf ∧ (s.tree.node x.node).isLeaf = true)
    (hfact : x.Fact overlay c (s.tree.node x.node) →
      Lookup.Fact overlay c { x with spot := p } (s.tree.node x.node)) :
    Lookup.Advanced overlay c s g x { x with spot := p } := by
  refine ⟨h.move hhit hleaf fun w hw => ?_, rfl, fun hdone => ?_⟩
  · obtain rfl : v = w := Option.some.inj (hp.symm.trans hw)
    exact (h.fact v hx).mono fun _ => hfact
  · rw [show p = .done from hdone] at hp
    cases hp

/-- Nothing was ever stored for an absent key. -/
theorem Lookup.Holds.value_eq_zero (h : x.Holds overlay c s g)
    (habs : OrderedMap.get? x.key s.tree.content = none) : x.value = 0 := by
  by_contra hne
  have hsome := h.bound (Or.inl hne)
  rw [habs] at hsome
  cases hsome

/-- The end of a task. -/
theorem Lookup.Holds.finish (h : x.Holds overlay c s g)
    (hval : x.value = (OrderedMap.get? x.key s.tree.content).getD 0) :
    Lookup.Advanced overlay c s g x (x.return' none) := by
  refine ⟨⟨h.reached, fun hhits => ?_, fun b hb => ?_, fun v hv => ?_⟩, rfl, fun _ => hval⟩
  · apply h.bound
    rcases hhits with hne | ⟨v, b, j, hp⟩
    · exact Or.inl hne
    · cases hp
  · cases hb
  · cases hv

theorem Lookup.Holds.goTo {m : Nat} (h : x.Holds overlay c s g) (hm : Reached s.tree g m x.key) :
    Lookup.Advanced overlay c s g x (x.return' (some m)) := by
  refine ⟨⟨hm, fun hhits => ?_, fun b hb => ?_, fun v hv => ?_⟩, rfl, fun hp => ?_⟩
  · apply h.bound
    rcases hhits with hne | ⟨v, b, j, hp⟩
    · exact Or.inl hne
    · cases hp
  · cases hb
  · cases hv
  · cases hp

/-- Behind the rightmost node there is no key. -/
theorem Lookup.Holds.returnRight {r : Option Nat} (h : x.Holds overlay c s g)
    (hinv : Inv c s.tree g) (hh : (s.tree.node x.node).highKey ≤ x.key)
    (hr : r = (s.tree.node x.node).rightSibling) :
    Lookup.Advanced overlay c s g x (x.return' r) := by
  have hnode := hinv.node x.node h.reached.lt_count
  cases r with
  | some r =>
      have hright := hnode.right_some r hr.symm
      exact h.goTo ⟨hright.2.1, by rw [hright.2.2.2]; exact hh⟩
  | none =>
      have hmax := hnode.right_none hr.symm
      have habs : OrderedMap.get? x.key s.tree.content = none := by
        cases hg : OrderedMap.get? x.key s.tree.content with
        | none => rfl
        | some r =>
            have hlt := hinv.lt_maxKey_of_get? hg
            omega
      apply h.finish
      rw [habs, h.value_eq_zero habs]
      rfl

theorem Lookup.Holds.returnChild {r : Option Nat} (h : x.Holds overlay c s g)
    (hinv : Inv c s.tree g) (hl : (s.tree.node x.node).isLeaf = false)
    (hr : r = (s.tree.node x.node).child x.key) :
    Lookup.Advanced overlay c s g x (x.return' r) := by
  obtain ⟨m, hm, hmc, hlow, _⟩ := (hinv.node x.node h.reached.lt_count).child hl h.reached.low_le
  rw [hr, hm]
  exact h.goTo ⟨hmc, hlow⟩

/-- In a leaf that has the key, the accessors read its live slot. -/
theorem leafKey_of_mem {nd : Node} (hw : nd.WellFormed c) (hl : nd.isLeaf = true)
    (hk : k ∈ nd.liveKeys) :
    leafKey overlay c nd (nd.index k) = k ∧
      leafValue overlay c nd (nd.index k) = nd.findValue c k := by
  rcases (Node.mem_liveKeys_iff hw.monotone k).mp hk with ⟨hi, hkey⟩
  have hcap := lt_of_lt_of_le hi hw.size_le
  have hitems : nd.index k < c.maxItems := lt_of_lt_of_le hi (hw.size_le_maxItems hl)
  constructor
  · rw [leafKey, if_pos hcap]
    exact hkey
  · rw [leafValue, if_pos ⟨hl, hitems⟩, Node.findValue, if_pos (hw.leafKey_index hl hk)]

/-- The end of a round that the last comparison accepts. -/
theorem Lookup.Holds.returnValue (h : x.Holds overlay c s g) (hinv : Inv c s.tree g)
    (hl : (s.tree.node x.node).isLeaf = true) (hh : x.key < (s.tree.node x.node).highKey)
    (hval : leafKey overlay c (s.tree.node x.node) ((s.tree.node x.node).index x.key) = x.key →
      x.value = leafValue overlay c (s.tree.node x.node) ((s.tree.node x.node).index x.key)) :
    Lookup.Advanced overlay c s g x (x.return' none) := by
  apply h.finish
  have hn := h.reached.lt_count
  cases hg : OrderedMap.get? x.key s.tree.content with
  | none => exact h.value_eq_zero hg
  | some r =>
      have hcontent := hinv.get?_content hn hl h.reached.low_le hh
      have hmem : x.key ∈ (s.tree.node x.node).liveKeys := by
        rw [Node.liveKeys_of_leaf hl]
        rw [hcontent] at hg
        exact List.mem_map_of_mem (OrderedMap.mem_of_get? hg)
      have hlive : leafKey overlay c (s.tree.node x.node) _ = x.key ∧ leafValue overlay c _ _ = _ :=
        leafKey_of_mem (hinv.node x.node hn).wellFormed hl hmem
      rw [hval hlive.1, hlive.2]
      exact findValue_spec hinv hn hl h.reached.low_le hh r hg

/-- A step of a lookup keeps what is known of it, and the value it ends with is the one of the
moment. -/
theorem Lookup.Holds.next (h : x.Holds overlay c s g) (hinv : Inv c s.tree g)
    (hv : x.Valid overlay c s) (hs : x.next overlay c s = some y) :
    Lookup.Advanced overlay c s g x y := by
  rcases x with ⟨k, n, r, p⟩
  cases p with
  | version =>
      simp only [Lookup.next, Option.map_eq_some_iff] at hs
      rcases hs with ⟨v, hread, rfl⟩
      rcases VersionedTree.readValid_eq hread with ⟨hfree, rfl⟩
      refine ⟨h.move (by simp) (by simp [Spot.branch]) fun w hw => ?_, rfl, fun hp => by cases hp⟩
      obtain rfl : s.version n = w := Option.some.inj hw
      exact ⟨le_rfl, hfree, fun _ => trivial⟩
  | highKey v =>
      simp only [Lookup.next] at hs
      split at hs
      next hh =>
        obtain rfl := Option.some.inj hs
        exact h.look rfl rfl (by simp) (by simp [Spot.branch]) fun _ => hh
      next hh =>
        split at hs
        next hl =>
          obtain rfl := Option.some.inj hs
          exact h.look rfl rfl (by simp) (by simp [Spot.branch]) fun _ => hl
        next hl =>
          obtain rfl := Option.some.inj hs
          have hleaf : ∀ b, some Branch.leaf = some b →
              b = .leaf ∧ (s.tree.node n).isLeaf = true := fun b hb =>
            ⟨(Option.some.inj hb).symm, Bool.of_not_eq_false hl⟩
          exact h.look rfl rfl (by simp) hleaf fun _ => not_le.mp hh
  | right v =>
      obtain rfl := Option.some.inj hs
      exact h.look rfl rfl (by simp) (by simp [Spot.branch]) fun hh => ⟨hh, rfl⟩
  | rightRead v next =>
      have hv : s.version n = v := hv
      rcases (h.fact v rfl).valid hv with ⟨hh, hright⟩
      simp only [Lookup.next, isValid, hv, decide_true, if_true] at hs
      obtain rfl := Option.some.inj hs
      exact h.returnRight hinv hh hright
  | child v =>
      obtain rfl := Option.some.inj hs
      exact h.look rfl rfl (by simp) (by simp [Spot.branch]) fun hl => ⟨hl, rfl⟩
  | childRead v next =>
      have hv : s.version n = v := hv
      rcases (h.fact v rfl).valid hv with ⟨hl, hchild⟩
      simp only [Lookup.next, isValid, hv, decide_true, if_true] at hs
      obtain rfl := Option.some.inj hs
      exact h.returnChild hinv hl hchild
  | index v b =>
      obtain rfl := Option.some.inj hs
      exact h.look rfl rfl (by simp) h.leaf fun hh => ⟨hh, rfl⟩
  | leafKey v b j =>
      simp only [Lookup.next] at hs
      split at hs
      next hkey =>
        obtain rfl := Option.some.inj hs
        exact h.look rfl rfl (fun _ _ _ _ => hv hkey) h.leaf fun hh => hh
      next hkey =>
        obtain rfl := Option.some.inj hs
        refine h.look rfl rfl (by simp) h.leaf fun hh => ⟨hh.1, fun heq => ?_⟩
        rw [← hh.2] at heq
        exact absurd heq hkey
  | value v b j =>
      obtain rfl := Option.some.inj hs
      have hsome := h.bound (Or.inr ⟨v, b, j, rfl⟩)
      refine ⟨⟨h.reached, fun _ => hsome, h.leaf, fun w hw => ?_⟩, rfl, fun hp => by cases hp⟩
      obtain rfl : v = w := Option.some.inj hw
      refine (h.fact v rfl).mono fun _ hh => ⟨hh.1, fun _ => ?_⟩
      rw [← hh.2]
  | last v b =>
      simp only [Lookup.next] at hs
      split at hs
      next hval =>
        obtain rfl := Option.some.inj hs
        rcases (h.fact v rfl).of_isValid hval hv with ⟨hh, hvalue⟩
        exact h.returnValue hinv (h.leaf b rfl).2 hh hvalue
      next =>
        obtain rfl := Option.some.inj hs
        exact ⟨h.move (by simp) (by simp [Spot.branch]) (by simp [Spot.seen]), rfl,
          fun hp => by cases hp⟩
  | done => cases hs

/-! ## Runs -/

namespace Site

def Holds (overlay : Overlay) (c : Capacity) (s : VersionedTree) (l : Latches Nat) (i : Nat) :
    Site → Prop
  | .task pc => Olfit.Holds s l i pc
  | .lookup x => x.Holds overlay c s l.ghost

/-- What an invariant step is for the threads with lookups. -/
abbrev KeepsAll (overlay : Overlay) (c : Capacity) (w : World) (i : Nat) (s : VersionedTree)
    (x : Site) (e : Option (Event Op Value)) : Prop :=
  Keeps finiteMap (fun s => s.tree.content) status (SoundHeld c) (Holds overlay c) w i s x e

variable {w : World} {x y : Site} {a : Move} {e : Option (Event Op Value)}

theorem keepsAll_of_task {pc pc' : Pc} {b : Act} (hx : w.thread i = .task pc)
    (hI : SoundHeld c w.shared l) (hall : ∀ j, Holds overlay c w.shared l j (w.thread j))
    (hok : Careful overlay c w i (.task b))
    (hs : Olfit.next c w.shared pc b = some (s', pc', e)) :
    KeepsAll overlay c w i s' (.task pc') e := by
  have hpc := hall i
  rcases hok with ⟨hv, hsp⟩
  rw [hx] at hpc hv hsp
  rcases Olfit.next_spec hI.1 hI.2 hpc hv hs with ⟨l', hstep⟩
  have hstatus : status (w.thread i) = pc.status := by rw [hx]; rfl
  refine ⟨l', ⟨hstep.sound, hstep.moves.held⟩, hstep.holds, fun j hj => ?_, ?_⟩
  · have hother := hall j
    have hspare := hsp j hj
    cases hy : w.thread j with
    | task other =>
        rw [hy] at hother hspare
        exact Olfit.Holds.stepped hother hI.2 hstep hj hspare
    | lookup z =>
        rw [hy] at hother
        exact Lookup.Holds.interferes hother hI.2 hstep.moves.interferes
          (isSome_of_simulates hstep.simulates)
  · rw [hstatus]
    exact hstep.simulates

/-- A step of one thread that leaves the tree alone. -/
theorem keepsAll_of_read (hI : SoundHeld c w.shared l)
    (hall : ∀ j, Holds overlay c w.shared l j (w.thread j))
    (hy : Holds overlay c w.shared l i y)
    (hs : Simulates finiteMap w.shared.tree.content w.shared.tree.content (w.thread i).status
      y.status e) : KeepsAll overlay c w i w.shared y e :=
  ⟨l, hI, hy, fun j _ => hall j, hs⟩

theorem holds_create (h : SoundHeld c s l) (k : Nat) :
    (Lookup.create s k).Holds overlay c s l.ghost := by
  refine ⟨Reached.root h.1.inv k, fun hhits => ?_, fun b hb => ?_, fun v hv => ?_⟩
  · rcases hhits with hne | ⟨v, b, j, hp⟩
    · exact absurd rfl hne
    · cases hp
  · cases hb
  · cases hv

theorem simulates_of_advanced {x y : Lookup} (h : x.Advanced overlay c s g y)
    (hx : x.spot ≠ .done) :
    Simulates finiteMap s.tree.content s.tree.content x.status y.status y.effect := by
  have hcalled : x.status = .called (.find x.key) := if_neg hx
  unfold Lookup.effect
  split
  next hy =>
    have happlied : y.status = .applied (.find y.key) y.value := if_pos hy
    refine ⟨⟨?_, fun v hg => ?_⟩, rfl, happlied⟩
    · rw [hcalled, h.key_eq]
    · rw [h.key_eq] at hg
      rw [h.result hy, hg]
      rfl
  next hy =>
    have hstill : y.status = .called (.find y.key) := if_neg hy
    exact ⟨rfl, by rw [hstill, hcalled, h.key_eq]⟩

theorem keepsAll (hI : SoundHeld c w.shared l)
    (hall : ∀ j, Holds overlay c w.shared l j (w.thread j)) (hok : Careful overlay c w i a)
    (hs : next overlay c w.shared (w.thread i) a = some (s', y, e)) :
    KeepsAll overlay c w i s' y e := by
  have hi := hall i
  have hv := hok.1
  cases hx : w.thread i with
  | task pc =>
      rw [hx] at hs
      cases a with
      | task b =>
          simp only [next, Option.map_eq_some_iff, Prod.mk.injEq] at hs
          rcases hs with ⟨⟨s1, pc1, e1⟩, hs, rfl, rfl, rfl⟩
          exact keepsAll_of_task hx hI hall hok hs
      | find k =>
          cases pc with
          | idle =>
              simp only [next, Option.some.injEq, Prod.mk.injEq] at hs
              rcases hs with ⟨rfl, rfl, rfl⟩
              refine keepsAll_of_read hI hall (holds_create hI k) ?_
              rw [hx]
              exact ⟨rfl, rfl, rfl⟩
          | _ => simp [next] at hs
      | go => simp [next] at hs
  | lookup x =>
      rw [hx] at hs hi hv
      cases a with
      | task b => simp [next] at hs
      | find k => simp [next] at hs
      | go =>
          simp only [next] at hs
          split at hs
          next hdone =>
            simp only [Option.some.injEq, Prod.mk.injEq] at hs
            rcases hs with ⟨rfl, rfl, rfl⟩
            refine keepsAll_of_read hI hall trivial ?_
            rw [hx]
            exact ⟨if_pos hdone, rfl, rfl⟩
          next hdone =>
            simp only [Option.map_eq_some_iff, Prod.mk.injEq] at hs
            rcases hs with ⟨z, hz, rfl, rfl, rfl⟩
            have hadv := Lookup.Holds.next hi hI.1.inv hv hz
            refine keepsAll_of_read hI hall hadv.holds ?_
            rw [hx]
            exact simulates_of_advanced hadv hdone

theorem safe {memory : Nat → Memory}
    (hw : Reachable (next overlay c) (Careful overlay c) (init memory) w) :
    Safe finiteMap (fun s => s.tree.content) status (SoundHeld c) (Holds overlay c) w := by
  refine safe_of_reachable hw ⟨⟨Ghost.initial Nat, fun _ => none⟩,
    ⟨sound_empty False c memory, held_empty⟩, fun _ => trivial, ?_⟩ ?_
  · exact tracks_empty memory
  · intro w i a l s' y e hok hI hall hs
    exact keepsAll hI hall hok hs

end Site

/-- In all runs whose steps meet the condition: the code for leaves runs only on leaves, in
rounds whose tests found the high key above the key; and a lookup ends with the value that
the tree has for the key at that moment, or with 0. -/
theorem lookups_read_leaves (overlay : Overlay) (c : Capacity) (memory : Nat → Memory)
    {w : Site.World} (hw : Reachable (Site.next overlay c) (Site.Careful overlay c)
      (Site.init memory) w) :
    (∀ i x, w.thread i = .lookup x → ∀ b, x.spot.branch = some b →
      b = .leaf ∧ (w.shared.tree.node x.node).isLeaf = true) ∧
    ∀ i x y, w.thread i = .lookup x → Site.Careful overlay c w i .go →
      x.next overlay c w.shared = some y → y.spot = .done →
        y.value = (OrderedMap.get? x.key w.shared.tree.content).getD 0 := by
  rcases Site.safe hw with ⟨l, hI, hall, _⟩
  constructor
  · intro i x hx
    have hi := hall i
    rw [hx] at hi
    exact hi.leaf
  · intro i x y hx hok hs hdone
    have hi := hall i
    have hv := hok.1
    rw [hx] at hi hv
    exact (Lookup.Holds.next hi hI.1.inv hv hs).result hdone

/-- Whatever is read outside of a leaf is 0. -/
def Overlay.zero : Overlay := ⟨fun _ _ => 0, fun _ _ => 0⟩

/-- The lookup of a thread that is at one. -/
def Site.asLookup : Site → Option Lookup
  | .task _ => none
  | .lookup x => some x

theorem Site.eq_of_asLookup {z : Site} (h : z.asLookup = some x) : z = .lookup x := by
  cases z with
  | task pc => cases h
  | lookup y => rw [Option.some.inj h]

theorem Site.harmless_idle (c : Capacity) (s : VersionedTree) (x : Site) (a : Move) :
    Site.Harmless c s x a (.task .idle) := by
  cases x with
  | lookup x => trivial
  | task pc =>
      cases a with
      | task b => exact spares_none c s.tree _
      | find k => trivial
      | go => trivial

/-- A lookup of 5 reads the version, key 5 is inserted, and the lookup needs a second round. -/
def secondRound : List (Nat × Move) :=
  [(0, .find 5), (0, .go), (1, .task (.spawn (.insert 5 50)))] ++
    List.replicate 6 (1, .task .go) ++ List.replicate 10 (0, .go)

theorem lookups_read_leaves_second_round :
    ∃ w x y, Reachable (Site.next .zero .smallest) (Site.Careful .zero .smallest)
        (Site.init fun _ => .zero) w ∧ w.thread 0 = .lookup x ∧
      x.next .zero .smallest w.shared = some y ∧ y.spot = .done ∧ y.value = 50 ∧
      y.value = (OrderedMap.get? x.key w.shared.tree.content).getD 0 := by
  have hrun : (run (Site.next .zero .smallest)
      (ApartBelow (Site.Valid .zero .smallest) (Site.Harmless .smallest) 2)
      (Site.init fun _ => .zero) secondRound).bind (fun w =>
        (w.thread 0).asLookup.map fun x =>
          (x.next .zero .smallest w.shared, decide (x.Valid .zero .smallest w.shared))) =
      some (some ⟨5, 0, 50, .done⟩, true) := by decide
  rcases Option.bind_eq_some_iff.mp hrun with ⟨w, hw, hend⟩
  rcases Option.map_eq_some_iff.mp hend with ⟨x, hx, hend⟩
  have hx := Site.eq_of_asLookup hx
  simp only [Prod.mk.injEq, decide_eq_true_eq] at hend
  have hreach : Reachable (Site.next .zero .smallest) (Site.Careful .zero .smallest)
      (Site.init fun _ => .zero) w :=
    Reachable.of_run_apart (.task .idle) (fun s x a => Site.harmless_idle .smallest s x a)
      (fun _ _ => rfl) hw
  have hok : Site.Careful .zero .smallest w 0 .go := by
    refine ⟨?_, fun j _ => ?_⟩
    · rw [hx]
      exact hend.2
    · rw [hx]
      trivial
  have hall := lookups_read_leaves .zero .smallest (fun _ => .zero) hreach
  exact ⟨w, x, _, hreach, hx, hend.1, rfl, rfl, hall.2 0 x _ hx hok hend.1 rfl⟩

/-- The inserts and updates meet the condition; of the lookups nothing is asked. -/
def Site.TasksValid (s : VersionedTree) : Site → Move → Prop
  | .task pc, .task a => Olfit.Valid s pc a
  | _, _ => True

instance (s : VersionedTree) (x : Site) (a : Move) : Decidable (Site.TasksValid s x a) := by
  unfold Site.TasksValid
  split <;> infer_instance

/-- Three inserts make an inner node of the root. A lookup of 25 reads a child there, and an
insert of 40 splits a leaf and writes the root before the lookup compares the version. -/
def comparedInner : List (Nat × Move) :=
  [(0, .task (.spawn (.insert 10 1)))] ++ List.replicate 6 (0, .task .go) ++
    [(1, .task (.spawn (.insert 20 2)))] ++ List.replicate 6 (1, .task .go) ++
    [(2, .task (.spawn (.insert 30 3)))] ++ List.replicate 6 (2, .task .go) ++
    [(3, .find 25), (3, .go), (3, .go), (3, .go)] ++
    [(4, .task (.spawn (.insert 40 4)))] ++ List.replicate 16 (4, .task .go) ++ [(3, .go)]

/-- A lookup of 5 stores what the first dead slot holds, an insert of 10 makes its round fail,
and the second round finds no key 5. -/
def staleValue : List (Nat × Move) :=
  [(0, .find 5)] ++ List.replicate 5 (0, .go) ++ [(1, .task (.spawn (.insert 10 1)))] ++
    List.replicate 6 (1, .task .go) ++ List.replicate 6 (0, .go)

/-- A lookup runs the code for leaves on an inner node, and in memory that was not cleared a
lookup of an absent key ends with what a failed round has stored. -/
theorem lookup_reads_inner_node :
    (∃ w x, Reachable (Site.next .zero .smallest)
        (Apart Site.TasksValid (Site.Harmless .smallest)) (Site.init fun _ => .zero) w ∧
      w.thread 3 = .lookup x ∧ x.spot.branch = some .child ∧
      (w.shared.tree.node x.node).isLeaf = false) ∧
    ∃ w, Reachable (Site.next .zero .smallest)
        (Apart Site.TasksValid (Site.Harmless .smallest))
        (Site.init fun _ => ⟨fun _ => 5, fun _ => 7, fun _ => none⟩) w ∧
      w.thread 0 = .lookup ⟨5, 0, 7, .done⟩ ∧ w.shared.tree.content = [(10, 1)] := by
  constructor
  · have hrun : (run (Site.next .zero .smallest)
        (ApartBelow Site.TasksValid (Site.Harmless .smallest) 5) (Site.init fun _ => .zero)
        comparedInner).bind (fun w => (w.thread 3).asLookup.map fun x =>
          (x.spot.branch, (w.shared.tree.node x.node).isLeaf)) = some (some .child, false) := by
      decide
    rcases Option.bind_eq_some_iff.mp hrun with ⟨w, hw, hend⟩
    rcases Option.map_eq_some_iff.mp hend with ⟨x, hx, hend⟩
    have hreach := Reachable.of_run_apart (.task .idle)
      (fun s x a => Site.harmless_idle .smallest s x a) (fun _ _ => rfl) hw
    simp only [Prod.mk.injEq] at hend
    exact ⟨w, x, hreach, Site.eq_of_asLookup hx, hend.1, hend.2⟩
  · have hrun : (run (Site.next .zero .smallest)
        (ApartBelow Site.TasksValid (Site.Harmless .smallest) 2)
        (Site.init fun _ => ⟨fun _ => 5, fun _ => 7, fun _ => none⟩) staleValue).map
        (fun w => (w.shared.tree.content, (w.thread 0).asLookup)) =
        some ([(10, 1)], some ⟨5, 0, 7, .done⟩) := by decide
    rcases Option.map_eq_some_iff.mp hrun with ⟨w, hw, hend⟩
    have hreach := Reachable.of_run_apart (.task .idle)
      (fun s x a => Site.harmless_idle .smallest s x a) (fun _ _ => rfl) hw
    simp only [Prod.mk.injEq] at hend
    exact ⟨w, hreach, Site.eq_of_asLookup hend.2, hend.1⟩

end BLinkTree.Tbb.Olfit

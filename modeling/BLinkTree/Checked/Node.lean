import BLinkTree.Node
import BLinkTree.Lib.Cells

/-! # Nodes with arrays of their real lengths

The node and the functions of `node.cpp` once more, with arrays that have the lengths of
`InnerNode` and `LeafNode` and know which of their slots were written. An access behind an
array, a read of a slot that was never written, an access to an array of the other kind of node
and a size above the capacity have no result. The functions read and write in the order of the
source.
-/

namespace BLinkTree

/-- `InnerNode::max_keys` or `LeafNode::max_items`. -/
def Capacity.slots (c : Capacity) (isLeaf : Bool) : Nat := if isLeaf then c.maxItems else c.maxKeys

/-- Of the arrays that only one kind of node has, the other kind has no slot. -/
structure CheckedNode (c : Capacity) where
  isLeaf : Bool
  highKey : Nat
  rightSibling : Option Nat
  size : Nat
  keys : Cells Nat (c.slots isLeaf)
  values : Cells Value (if isLeaf then c.maxItems else 0)
  separators : Cells (Option Nat) (if isLeaf then 0 else c.maxKeys + 1)
  size_le : size ≤ c.slots isLeaf

namespace CheckedNode

variable {c : Capacity}

/-- `Node::Node`: no slot is written. -/
def create (c : Capacity) (isLeaf : Bool) : CheckedNode c where
  isLeaf := isLeaf
  highKey := maxKey
  rightSibling := none
  size := 0
  keys := .fresh _ _
  values := .fresh _ _
  separators := .fresh _ _
  size_le := Nat.zero_le _

/-- `Node::size(size)`. -/
def setSize (n : CheckedNode c) (size : Nat) : Option (CheckedNode c) :=
  if h : size % 2 ^ 16 ≤ c.slots n.isLeaf then
    some { n with size := size % 2 ^ 16, size_le := h }
  else none

def isFull (n : CheckedNode c) : Bool := decide (c.slots n.isLeaf ≤ n.size)

def innerKey (n : CheckedNode c) (index : Nat) : Option Nat :=
  if n.isLeaf then none else n.keys.read index

def leafKey (n : CheckedNode c) (index : Nat) : Option Nat :=
  if n.isLeaf then n.keys.read index else none

/-- `Node::separator(index)`. -/
def separator (n : CheckedNode c) (index : Nat) : Option (Option Nat) := n.separators.read index

/-- `Node::separator(index, separator)`. -/
def setSeparator (n : CheckedNode c) (index : Nat) (separator : Option Nat) :
    Option (CheckedNode c) := do
  let separators ← n.separators.write index separator
  return { n with separators := separators }

/-- `Node::index`. -/
def index (n : CheckedNode c) (key : Nat) : Option Nat := do
  let distance ← n.keys.lowerBound n.size key
  return distance % 2 ^ 16

/-- The loop of `Node::child`; the position of the key is converted to `size_type`. -/
def childLoop (n : CheckedNode c) (key : Nat) : Nat → Int → Int → Option Int
  | 0, low, high => if low ≤ high then none else some high
  | fuel + 1, low, high =>
      if low ≤ high then do
        let mid := Node.int16 ((low + high) / 2)
        if (← n.innerKey (mid % 2 ^ 16).toNat) ≤ key then
          n.childLoop key fuel (Node.int16 (mid + 1)) high
        else n.childLoop key fuel low (Node.int16 (mid - 1))
      else some high

/-- `Node::child`; the position of the separator is converted to `std::size_t`. -/
def child (n : CheckedNode c) (key : Nat) : Option (Option Nat) := do
  let high ← n.childLoop key n.size 0 (Node.int16 (n.size - 1))
  n.separator ((high + 1) % 2 ^ 64).toNat

/-- `index < size() && leaf_key(index) == key`. -/
def hasLeafKey (n : CheckedNode c) (index key : Nat) : Option Bool :=
  if index < n.size then (n.leafKey index).map fun k => decide (k = key) else some false

/-- `Node::insert_separator`. -/
def insertSeparator (n : CheckedNode c) (index separator key : Nat) : Option (CheckedNode c) := do
  let keys ← n.keys.insertAt index n.size key
  let separators ← n.separators.insertAt (index + 1) (n.size + 1) (some separator)
  { n with keys := keys, separators := separators }.setSize (n.size + 1)

/-- `Node::insert_value`. -/
def insertValue (n : CheckedNode c) (index : Nat) (value : Value) (key : Nat) :
    Option (CheckedNode c) := do
  let keys ← n.keys.insertAt index n.size key
  let values ← n.values.insertAt index n.size value
  { n with keys := keys, values := values }.setSize (n.size + 1)

/-- `Node::copy`; the result is the node that is copied to. -/
def copy (n other : CheckedNode c) (fromIndex count : Nat) : Option (CheckedNode c) := do
  let keys ← other.keys.memcpy 0 n.keys fromIndex count
  if n.isLeaf then
    let values ← other.values.memcpy 0 n.values fromIndex count
    return { other with keys := keys, values := values }
  else
    let separators ← other.separators.memcpy 1 n.separators (fromIndex + 1) count
    return { other with keys := keys, separators := separators }

/-! ## Agreement with the node of the tree -/

/-- The headers are the same, and what is known of the arrays agrees: the first `count` keys and
values and the separators `lo .. hi - 1`. -/
structure Agrees (n : CheckedNode c) (m : Node) (count lo hi : Nat) : Prop where
  isLeaf : n.isLeaf = m.isLeaf
  highKey : n.highKey = m.highKey
  rightSibling : n.rightSibling = m.rightSibling
  size : n.size = m.size
  keys : n.keys.Holds m.keys 0 count
  values : n.isLeaf = true → n.values.Holds m.values 0 count
  separators : n.isLeaf = false → n.separators.Holds m.separators lo hi

/-- All live slots are known. -/
def Shows (n : CheckedNode c) (m : Node) : Prop := n.Agrees m m.size 0 (m.size + 1)

variable {n n' : CheckedNode c} {m m' : Node} {count lo hi : Nat}

theorem slots_lt (c : Capacity) (isLeaf : Bool) : c.slots isLeaf < 2 ^ 14 := by
  have h1 := c.maxKeys_lt
  have h2 := c.maxItems_lt
  unfold Capacity.slots
  split <;> assumption

theorem slots_of_leaf (hl : n.isLeaf = true) : c.slots n.isLeaf = c.maxItems := if_pos hl

theorem slots_of_inner (hl : n.isLeaf = false) : c.slots n.isLeaf = c.maxKeys := by
  simp [Capacity.slots, hl]

theorem Agrees.size_le (h : n.Agrees m count lo hi) : m.size ≤ c.slots n.isLeaf :=
  h.size ▸ n.size_le

theorem Agrees.size_lt (h : n.Agrees m count lo hi) : m.size < 2 ^ 14 :=
  lt_of_le_of_lt h.size_le (slots_lt c _)

theorem Agrees.mono {count' lo' hi' : Nat} (h : n.Agrees m count lo hi) (hc : count' ≤ count)
    (hlo : lo ≤ lo') (hhi : hi' ≤ hi) : n.Agrees m count' lo' hi' :=
  ⟨h.isLeaf, h.highKey, h.rightSibling, h.size, h.keys.mono (Nat.zero_le 0) hc,
    fun hl => (h.values hl).mono (Nat.zero_le 0) hc, fun hl => (h.separators hl).mono hlo hhi⟩

/-- Of a leaf no separator has to be known. -/
theorem Agrees.shows_of_leaf (h : n.Agrees m count lo hi) (hl : n.isLeaf = true)
    (hc : m.size ≤ count) : n.Shows m :=
  ⟨h.isLeaf, h.highKey, h.rightSibling, h.size, h.keys.mono (Nat.zero_le 0) hc,
    fun hl => (h.values hl).mono (Nat.zero_le 0) hc,
    fun hf => absurd (hl.symm.trans hf) (by decide)⟩

theorem Agrees.isFull_eq (h : n.Agrees m count lo hi) : n.isFull = m.isFull c := by
  unfold isFull Node.isFull Node.capacity Capacity.slots
  rw [h.isLeaf, h.size]

theorem Agrees.size_lt_slots (h : n.Agrees m count lo hi) (hf : m.isFull c = false) :
    m.size < c.slots n.isLeaf := by
  rw [← h.isFull_eq, isFull, decide_eq_false_iff_not, not_le, h.size] at hf
  exact hf

theorem Agrees.size_eq_slots (h : n.Agrees m count lo hi) (hf : m.isFull c = true) :
    m.size = c.slots n.isLeaf := by
  rw [← h.isFull_eq, isFull, decide_eq_true_iff, h.size] at hf
  exact le_antisymm h.size_le hf

theorem agrees_create (c : Capacity) (isLeaf : Bool) (raw : Memory) (lo : Nat) :
    (create c isLeaf).Agrees (Node.create isLeaf raw) 0 lo lo where
  isLeaf := rfl
  highKey := rfl
  rightSibling := rfl
  size := rfl
  keys := .empty _ _ _
  values := fun _ => .empty _ _ _
  separators := fun _ => .empty _ _ _

/-- An empty leaf shows all its live slots. -/
theorem shows_create_leaf (c : Capacity) (raw : Memory) :
    (create c true).Shows (Node.create true raw) where
  isLeaf := rfl
  highKey := rfl
  rightSibling := rfl
  size := rfl
  keys := .empty _ _ _
  values := fun _ => .empty _ _ _
  separators := fun h => absurd h (by simp [create])

theorem Agrees.setSize (h : n.Agrees m count lo hi) (size : Nat) (hs : size ≤ c.slots n.isLeaf) :
    ∃ n', n.setSize size = some n' ∧ n'.isLeaf = n.isLeaf ∧
      n'.Agrees { m with size := size } count lo hi := by
  have hlt := slots_lt c n.isLeaf
  have hmod : size % 2 ^ 16 = size := Nat.mod_eq_of_lt (by omega)
  have hle : size % 2 ^ 16 ≤ c.slots n.isLeaf := by omega
  exact ⟨{ n with size := size % 2 ^ 16, size_le := hle }, dif_pos hle, rfl,
    ⟨h.isLeaf, h.highKey, h.rightSibling, hmod, h.keys, h.values, h.separators⟩⟩

theorem Agrees.setHighKey (h : n.Agrees m count lo hi) (key : Nat) :
    { n with highKey := key }.Agrees { m with highKey := key } count lo hi :=
  ⟨h.isLeaf, rfl, h.rightSibling, h.size, h.keys, h.values, h.separators⟩

theorem Agrees.setRightSibling (h : n.Agrees m count lo hi) (right : Option Nat) :
    { n with rightSibling := right }.Agrees { m with rightSibling := right } count lo hi :=
  ⟨h.isLeaf, h.highKey, rfl, h.size, h.keys, h.values, h.separators⟩

/-! ## Reads -/

theorem Agrees.innerKey (h : n.Agrees m count lo hi) (hl : n.isLeaf = false) {i : Nat}
    (hi : i < count) : n.innerKey i = some (m.keys i) := by
  simp [CheckedNode.innerKey, hl, h.keys.read (Nat.zero_le i) hi]

theorem Agrees.leafKey (h : n.Agrees m count lo hi) (hl : n.isLeaf = true) {i : Nat}
    (hi : i < count) : n.leafKey i = some (m.keys i) := by
  simp [CheckedNode.leafKey, hl, h.keys.read (Nat.zero_le i) hi]

theorem Agrees.hasLeafKey (h : n.Agrees m count lo hi) (hl : n.isLeaf = true)
    (hc : m.size ≤ count) (i key : Nat) :
    n.hasLeafKey i key = some (decide (i < m.size ∧ m.keys i = key)) := by
  unfold CheckedNode.hasLeafKey
  rw [h.size]
  split
  next hlt =>
    rw [h.leafKey hl (show i < count by omega)]
    simp [hlt]
  next hge => simp [hge]

theorem Agrees.separator (h : n.Agrees m count lo hi) (hl : n.isLeaf = false) {i : Nat}
    (h1 : lo ≤ i) (h2 : i < hi) : n.separator i = some (m.separators i) :=
  (h.separators hl).read h1 h2

theorem Agrees.index (h : n.Agrees m count lo hi) (hc : m.size ≤ count) (key : Nat) :
    n.index key = some (m.index key) := by
  have hle := m.index_le key
  have hlt := h.size_lt
  have hmod : m.index key % 2 ^ 16 = m.index key := Nat.mod_eq_of_lt (by omega)
  have hsearch : n.keys.lowerBound n.size key = some (m.index key) := by
    rw [h.size]
    exact h.keys.lowerBound hc key
  simp only [CheckedNode.index, hsearch, Option.bind_eq_bind, Option.bind_some, hmod]
  rfl

/-- The loop reads live keys only, whatever they are, and the conversions change nothing. -/
theorem Agrees.childLoop (h : n.Agrees m count lo hi) (hl : n.isLeaf = false)
    (hc : m.size ≤ count) (key : Nat) {fuel : Nat} {low high : Int}
    (hfuel : high - low + 1 ≤ fuel) (h0 : 0 ≤ low) (hh : high < m.size) :
    n.childLoop key fuel low high = some (Node.childLoop m.keys key fuel low high) := by
  have hlt := h.size_lt
  induction fuel generalizing low high with
  | zero =>
      have hcross : ¬ low ≤ high := by omega
      exact if_neg hcross
  | succ fuel ih =>
      simp only [CheckedNode.childLoop, Node.childLoop]
      split
      next hle =>
        rw [Node.int16_of_mem (show -32768 ≤ (low + high) / 2 by omega) (by omega)]
        have hmid : ((low + high) / 2 % 2 ^ 16).toNat = ((low + high) / 2).toNat := by omega
        rw [hmid, h.innerKey hl (show ((low + high) / 2).toNat < count by omega)]
        simp only [Option.bind_eq_bind, Option.bind_some]
        split
        · rw [Node.int16_of_mem (by omega) (by omega)]
          exact ih (by omega) (by omega) hh
        · rw [Node.int16_of_mem (by omega) (by omega)]
          exact ih (by omega) h0 (by omega)
      · rfl

theorem Agrees.child (h : n.Agrees m count 0 hi) (hl : n.isLeaf = false) (hc : m.size ≤ count)
    (hs : m.size < hi) (key : Nat) : n.child key = some (m.child key) := by
  have hlt := h.size_lt
  have h16 : Node.int16 ((m.size : Int) - 1) = m.size - 1 :=
    Node.int16_of_mem (by omega) (by omega)
  have hloop : n.childLoop key m.size 0 (m.size - 1) =
      some (Node.childLoop m.keys key m.size 0 (m.size - 1)) :=
    h.childLoop hl hc key (by omega) (by omega) (by omega)
  have hbounds := Node.childLoop_bounds m.keys hlt.le key m.size 0 (m.size - 1) (by omega)
    (by omega) (by omega)
  have hslot : ((Node.childLoop m.keys key m.size 0 (m.size - 1) + 1) % 2 ^ 64).toNat =
      m.childSlot key := by
    unfold Node.childSlot
    rw [h16]
    omega
  have hle := Node.childSlot_le hlt.le key
  simp only [CheckedNode.child, h.size, h16, hloop, Option.bind_eq_bind, Option.bind_some, hslot]
  exact h.separator hl (Nat.zero_le _) (by omega)

-- the first separator of a new inner node was not written yet
example : (create .smallest false).child 7 = none := by decide

/-! ## Writes -/

theorem Agrees.setSeparator (h : n.Agrees m count lo hi) (hl : n.isLeaf = false) {i : Nat}
    (hin : i ≤ c.maxKeys) (s : Option Nat) {lo' hi' : Nat}
    (hcover : ∀ j, lo' ≤ j → j < hi' → j = i ∨ lo ≤ j ∧ j < hi) :
    ∃ n', n.setSeparator i s = some n' ∧ n'.isLeaf = n.isLeaf ∧
      n'.Agrees (m.setSeparator i s) count lo' hi' := by
  have hlength : (if n.isLeaf then 0 else c.maxKeys + 1) = c.maxKeys + 1 := by simp [hl]
  rcases (h.separators hl).write (by omega) s hcover with ⟨a, hwrite, ha⟩
  refine ⟨{ n with separators := a }, ?_, rfl, ?_⟩
  · simp only [CheckedNode.setSeparator, hwrite, Option.bind_eq_bind, Option.bind_some]
    rfl
  · exact ⟨h.isLeaf, h.highKey, h.rightSibling, h.size, h.keys,
      fun hf => absurd (hl.symm.trans hf) (by decide), fun _ => ha⟩

/-- A separator and its key are inserted into a node that is not full. -/
theorem Agrees.insertSeparator (h : n.Agrees m count 0 hi) (hl : n.isLeaf = false)
    (hc : m.size ≤ count) (hs : m.size < hi) (hroom : m.size < c.maxKeys) {i : Nat}
    (hi : i ≤ m.size) (separator key : Nat) :
    ∃ n', n.insertSeparator i separator key = some n' ∧
      n'.Shows (m.insertSeparator i separator key) := by
  have hslots := slots_of_inner hl
  have hlength : (if n.isLeaf then 0 else c.maxKeys + 1) = c.maxKeys + 1 := by simp [hl]
  have hkeys := h.keys.mono (Nat.zero_le 0) hc
  have hseps := (h.separators hl).mono (Nat.zero_le 0) (show m.size + 1 ≤ _ from hs)
  rcases hkeys.insertAt (Nat.zero_le i) hi (by omega) key with ⟨ks, hk, hks⟩
  rcases hseps.insertAt (Nat.zero_le (i + 1)) (by omega) (by omega) (some separator) with
    ⟨ss, hsep, hss⟩
  have hmid : { n with keys := ks, separators := ss }.Agrees
      { m with
        keys := Slots.insertAt m.keys i m.size key
        separators := Slots.insertAt m.separators (i + 1) (m.size + 1) (some separator) }
      (m.size + 1) 0 (m.size + 2) :=
    ⟨h.isLeaf, h.highKey, h.rightSibling, h.size, hks,
      fun hf => absurd (hl.symm.trans hf) (by decide), fun _ => hss⟩
  rcases hmid.setSize (m.size + 1) (show _ ≤ c.slots n.isLeaf by omega) with
    ⟨n', hrun, _, hn'⟩
  refine ⟨n', ?_, hn'⟩
  simp only [CheckedNode.insertSeparator, h.size, hk, hsep, Option.bind_eq_bind,
    Option.bind_some]
  exact hrun

/-- A value and its key are inserted into a leaf that is not full. -/
theorem Agrees.insertValue (h : n.Agrees m count lo hi) (hl : n.isLeaf = true)
    (hc : m.size ≤ count) (hroom : m.size < c.maxItems) {i : Nat} (hi : i ≤ m.size)
    (value : Value) (key : Nat) :
    ∃ n', n.insertValue i value key = some n' ∧ n'.Shows (m.insertValue i value key) := by
  have hslots := slots_of_leaf hl
  have hlength : (if n.isLeaf then c.maxItems else 0) = c.maxItems := if_pos hl
  have hkeys := h.keys.mono (Nat.zero_le 0) hc
  have hvalues := (h.values hl).mono (Nat.zero_le 0) hc
  rcases hkeys.insertAt (Nat.zero_le i) hi (by omega) key with ⟨ks, hk, hks⟩
  rcases hvalues.insertAt (Nat.zero_le i) hi (by omega) value with ⟨vs, hv, hvs⟩
  have hmid : { n with keys := ks, values := vs }.Agrees
      { m with
        keys := Slots.insertAt m.keys i m.size key
        values := Slots.insertAt m.values i m.size value } (m.size + 1) 0 (m.size + 2) :=
    ⟨h.isLeaf, h.highKey, h.rightSibling, h.size, hks, fun _ => hvs,
      fun hf => absurd (hl.symm.trans hf) (by decide)⟩
  rcases hmid.setSize (m.size + 1) (show _ ≤ c.slots n.isLeaf by omega) with
    ⟨n', hrun, _, hn'⟩
  refine ⟨n', ?_, hn'⟩
  simp only [CheckedNode.insertValue, h.size, hk, hv, Option.bind_eq_bind, Option.bind_some]
  exact hrun

/-- Live slots of a node are copied to the front of a node of the same kind. -/
theorem Agrees.copy (h : n.Agrees m count lo hi) {count' lo' hi' : Nat}
    (h' : n'.Agrees m' count' lo' hi') (hkind : n'.isLeaf = n.isLeaf) {i k : Nat}
    (hc : i + k ≤ count) (hk : k ≤ c.slots n.isLeaf)
    (hs : n.isLeaf = false → lo ≤ i + 1 ∧ i + 1 + k ≤ hi) :
    ∃ x, n.copy n' i k = some x ∧ x.isLeaf = n.isLeaf ∧ x.Agrees (m.copy m' i k) k 1 (k + 1) := by
  have hkeys : ∃ a, n'.keys.memcpy 0 n.keys i k = some a ∧
      a.Holds (Slots.memcpy m'.keys 0 m.keys i k) 0 k :=
    h'.keys.memcpy h.keys (Nat.zero_le i) hc (by rw [hkind]; omega) fun s _ hs => by omega
  rcases hkeys with ⟨ks, hrun, hks⟩
  cases hl : n.isLeaf with
  | true =>
      have hl' : n'.isLeaf = true := hkind.trans hl
      have hlength : (if n'.isLeaf then c.maxItems else 0) = c.maxItems := if_pos hl'
      rw [slots_of_leaf hl] at hk
      have hvalues : ∃ a, n'.values.memcpy 0 n.values i k = some a ∧
          a.Holds (Slots.memcpy m'.values 0 m.values i k) 0 k :=
        (h'.values hl').memcpy (h.values hl) (Nat.zero_le i) hc (by omega)
          fun s _ hs => by omega
      rcases hvalues with ⟨vs, hrun', hvs⟩
      refine ⟨{ n' with keys := ks, values := vs }, ?_, hl', ?_⟩
      · simp only [CheckedNode.copy, hrun, hl, if_true, hrun', Option.bind_eq_bind,
          Option.bind_some]
        rfl
      · rw [Node.copy, if_pos (h.isLeaf ▸ hl)]
        exact ⟨h'.isLeaf, h'.highKey, h'.rightSibling, h'.size, hks, fun _ => hvs,
          fun hf => absurd (hl'.symm.trans hf) (by decide)⟩
  | false =>
      have hl' : n'.isLeaf = false := hkind.trans hl
      have hlength : (if n'.isLeaf then 0 else c.maxKeys + 1) = c.maxKeys + 1 := by simp [hl']
      rw [slots_of_inner hl] at hk
      rcases hs hl with ⟨h1, h2⟩
      have hseps : ∃ a, n'.separators.memcpy 1 n.separators (i + 1) k = some a ∧
          a.Holds (Slots.memcpy m'.separators 1 m.separators (i + 1) k) 1 (k + 1) :=
        (h'.separators hl').memcpy (h.separators hl) h1 h2 (by omega) fun s _ hs => by omega
      rcases hseps with ⟨ss, hrun', hss⟩
      refine ⟨{ n' with keys := ks, separators := ss }, ?_, hl', ?_⟩
      · simp only [CheckedNode.copy, hrun, hl, Bool.false_eq_true, if_false, hrun',
          Option.bind_eq_bind, Option.bind_some]
        rfl
      · have hm : m.isLeaf = false := h.isLeaf ▸ hl
        simp only [Node.copy, hm, Bool.false_eq_true, if_false]
        exact ⟨h'.isLeaf, h'.highKey, h'.rightSibling, h'.size, hks,
          fun hf => absurd (hl'.symm.trans hf) (by decide), fun _ => hss⟩

end CheckedNode

end BLinkTree

import BLinkTree.Lib.OrderedMap
import BLinkTree.Lib.Slots

/-! # B-link tree nodes

The record follows `NodeHeader`, `InnerNode` and `LeafNode` of `node.h`, and the
functions follow `node.cpp`. A key is a natural number below `2 ^ 64`, a size is a
16-bit unsigned value that stays below the capacities, and a non-null `Node *` is
the number of the node, nodes being numbered in the order of their creation. The slot
arrays come from memory that is never cleared, so a slot behind the live prefix holds
whatever was there before. The values of a leaf follow its keys without a gap, and behind
the values comes a word that belongs to no slot: the last one of the node, or one behind it.
`parent` is written on nodes whose latch is not held and is kept by the tree.
-/

namespace BLinkTree

/-- `value_type`. -/
abbrev Value := Int

/-- The bits of a `value_type`, read as a `key_type`. -/
def asKey (value : Value) : Nat := (value % 2 ^ 64).toNat

/-- `std::numeric_limits<key_type>::max()`, the high key of a rightmost node. -/
def maxKey : Nat := 2 ^ 64 - 1

/-- `InnerNode::max_keys` and `LeafNode::max_items`. -/
structure Capacity where
  maxKeys : Nat
  maxItems : Nat
  two_le_maxKeys : 2 ≤ maxKeys
  maxKeys_lt : maxKeys < 2 ^ 14
  two_le_maxItems : 2 ≤ maxItems
  maxItems_lt : maxItems < 2 ^ 14

/-- The smallest nodes. -/
def Capacity.smallest : Capacity := ⟨2, 2, by decide, by decide, by decide, by decide⟩

/-- The slot arrays of a node. `values` goes on with the words behind the array. -/
structure Memory where
  keys : Nat → Nat
  values : Nat → Value
  separators : Nat → Option Nat

/-- Memory that was cleared. -/
def Memory.zero : Memory := ⟨fun _ => 0, fun _ => 0, fun _ => none⟩

/-- Header and slots of a node. -/
structure Node extends Memory where
  isLeaf : Bool
  highKey : Nat
  rightSibling : Option Nat
  size : Nat

namespace Node

/-- `Node::Node`: the header is initialised, the slots are not. -/
def create (isLeaf : Bool) (raw : Memory) : Node :=
  { raw with isLeaf := isLeaf, highKey := maxKey, rightSibling := none, size := 0 }

/-- The capacity of the node's kind. -/
def capacity (c : Capacity) (n : Node) : Nat := if n.isLeaf then c.maxItems else c.maxKeys

def isFull (c : Capacity) (n : Node) : Bool := decide (n.capacity c ≤ n.size)

/-- `Node::index`. -/
def index (n : Node) (key : Nat) : Nat := Slots.lowerBound n.keys n.size key

/-- `Node::leaf_key(index)`: behind the last key it reads the values. -/
def leafKey (c : Capacity) (n : Node) (index : Nat) : Nat :=
  if index < c.maxItems then n.keys index else asKey (n.values (index - c.maxItems))

/-- Conversion to `std::int16_t`. -/
def int16 (x : Int) : Int := (x + 32768) % 65536 - 32768

/-- The loop of `Node::child`; it ends with the value of `high`. Every round shortens
`[low, high]`, so the number of live keys bounds the rounds. -/
def childLoop (keys : Nat → Nat) (key : Nat) : Nat → Int → Int → Int
  | 0, _, high => high
  | fuel + 1, low, high =>
      if low ≤ high then
        let mid := int16 ((low + high) / 2)
        if keys mid.toNat ≤ key then childLoop keys key fuel (int16 (mid + 1)) high
        else childLoop keys key fuel low (int16 (mid - 1))
      else high

/-- The separator slot `Node::child` reads. -/
def childSlot (n : Node) (key : Nat) : Nat :=
  (childLoop n.keys key n.size 0 (int16 (n.size - 1)) + 1).toNat

/-- `Node::child`. -/
def child (n : Node) (key : Nat) : Option Nat := n.separators (n.childSlot key)

/-- `Node::insert_separator`. -/
def insertSeparator (n : Node) (index : Nat) (separator : Nat) (key : Nat) : Node :=
  { n with
    keys := Slots.insertAt n.keys index n.size key
    separators := Slots.insertAt n.separators (index + 1) (n.size + 1) (some separator)
    size := n.size + 1 }

/-- `Node::insert_value`. -/
def insertValue (n : Node) (index : Nat) (value : Value) (key : Nat) : Node :=
  { n with
    keys := Slots.insertAt n.keys index n.size key
    values := Slots.insertAt n.values index n.size value
    size := n.size + 1 }

/-- `Node::copy`; the result is the node that is copied to. -/
def copy (n other : Node) (fromIndex count : Nat) : Node :=
  if n.isLeaf then
    { other with
      keys := Slots.memcpy other.keys 0 n.keys fromIndex count
      values := Slots.memcpy other.values 0 n.values fromIndex count }
  else
    { other with
      keys := Slots.memcpy other.keys 0 n.keys fromIndex count
      separators := Slots.memcpy other.separators 1 n.separators (fromIndex + 1) count }

/-- `Node::separator(index, separator)`. -/
def setSeparator (n : Node) (index : Nat) (separator : Option Nat) : Node :=
  { n with separators := Slots.store n.separators index separator }

/-- `Node::value(index, value)`. -/
def setValue (n : Node) (index : Nat) (value : Value) : Node :=
  { n with values := Slots.store n.values index value }

/-! ## The live part of a node -/

/-- The bindings of a leaf. -/
def entries (n : Node) : List (Nat × Value) :=
  if n.isLeaf then Slots.pairs n.keys n.values n.size else []

/-- The separator keys of an inner node, each with the separator on its right. -/
def seps (n : Node) : List (Nat × Option Nat) :=
  if n.isLeaf then [] else Slots.pairs n.keys (fun i => n.separators (i + 1)) n.size

/-- The leftmost separator of an inner node. -/
def first (n : Node) : Option Nat := if n.isLeaf then none else n.separators 0

/-- The keys in the live slots. -/
def liveKeys (n : Node) : List Nat := (List.range n.size).map n.keys

/-- The separators `0 .. size()` of an inner node. -/
def children (n : Node) : List (Option Nat) :=
  if n.isLeaf then [] else (List.range (n.size + 1)).map n.separators

/-- Not over capacity and strictly increasing keys. -/
structure WellFormed (c : Capacity) (n : Node) : Prop where
  size_le : n.size ≤ n.capacity c
  sorted : n.liveKeys.Pairwise (· < ·)

theorem entries_of_leaf {n : Node} (h : n.isLeaf = true) :
    n.entries = Slots.pairs n.keys n.values n.size := if_pos h

theorem seps_of_inner {n : Node} (h : n.isLeaf = false) :
    n.seps = Slots.pairs n.keys (fun i => n.separators (i + 1)) n.size := by
  simp [seps, h]

theorem liveKeys_of_leaf {n : Node} (h : n.isLeaf = true) :
    n.liveKeys = n.entries.map Prod.fst := by
  rw [entries_of_leaf h, Slots.map_fst_pairs, liveKeys]

theorem liveKeys_of_inner {n : Node} (h : n.isLeaf = false) :
    n.liveKeys = n.seps.map Prod.fst := by
  rw [seps_of_inner h, Slots.map_fst_pairs, liveKeys]

theorem children_of_inner {n : Node} (h : n.isLeaf = false) :
    n.children = n.first :: n.seps.map Prod.snd := by
  simp [children, first, seps, h, Slots.pairs, List.range_succ_eq_map, Function.comp_def]

theorem mem_children {n : Node} {y : Option Nat} :
    y ∈ n.children ↔ n.isLeaf = false ∧ ∃ j ≤ n.size, n.separators j = y := by
  cases hl : n.isLeaf with
  | true => simp [children, hl]
  | false =>
      simp only [children, hl, Bool.false_eq_true, if_false, List.mem_map, List.mem_range,
        Nat.lt_succ_iff, true_and]

theorem length_entries {n : Node} (h : n.isLeaf = true) : n.entries.length = n.size := by
  simp [entries, h]

theorem length_seps {n : Node} (h : n.isLeaf = false) : n.seps.length = n.size := by
  simp [seps, h]

theorem capacity_lt (c : Capacity) (n : Node) : n.capacity c < 2 ^ 14 := by
  have h1 := c.maxKeys_lt
  have h2 := c.maxItems_lt
  unfold capacity
  split <;> assumption

theorem monotone_of_sorted {n : Node} (hs : n.liveKeys.Pairwise (· < ·)) :
    Slots.Monotone n.keys n.size := by
  rw [liveKeys, ← Slots.map_fst_pairs n.keys n.values, List.pairwise_map] at hs
  exact Slots.Monotone.of_pairwise hs

theorem WellFormed.monotone {c : Capacity} {n : Node} (h : n.WellFormed c) :
    Slots.Monotone n.keys n.size :=
  monotone_of_sorted h.sorted

/-! ## Searching -/

theorem index_le (n : Node) (key : Nat) : n.index key ≤ n.size := Slots.lowerBound_le _ _ _

theorem int16_of_mem {x : Int} (h1 : -32768 ≤ x) (h2 : x < 32768) : int16 x = x := by
  unfold int16
  omega

/-- The bounds stay inside the live keys, whatever the keys are. -/
theorem childLoop_bounds (keys : Nat → Nat) {size : Nat} (hsize : size ≤ 2 ^ 14) (q : Nat)
    (fuel : Nat) (low high : Int) (h0 : 0 ≤ low) (hlh : low ≤ high + 1) (hh : high < size) :
    0 ≤ childLoop keys q fuel low high + 1 ∧ childLoop keys q fuel low high < size := by
  induction fuel generalizing low high with
  | zero =>
      simp only [childLoop]
      exact ⟨by omega, hh⟩
  | succ fuel ih =>
      simp only [childLoop]
      split
      next hle =>
        rw [int16_of_mem (show -32768 ≤ (low + high) / 2 by omega) (by omega)]
        split
        · rw [int16_of_mem (by omega) (by omega)]
          exact ih _ _ (by omega) (by omega) hh
        · rw [int16_of_mem (by omega) (by omega)]
          exact ih _ _ h0 (by omega) (by omega)
      next hle => exact ⟨by omega, hh⟩

/-- Every key left of `low` is at most the searched key, every live key right of
`high` is above it, until the two bounds cross. -/
theorem childLoop_spec {keys : Nat → Nat} {size : Nat} (hm : Slots.Monotone keys size)
    (hsize : size ≤ 2 ^ 14) (q : Nat) (fuel : Nat) (low high : Int)
    (hfuel : high - low + 1 ≤ fuel) (h0 : 0 ≤ low) (hlh : low ≤ high + 1) (hh : high < size)
    (hlo : ∀ i : Nat, (i : Int) < low → keys i ≤ q)
    (hhi : ∀ i : Nat, high < i → i < size → q < keys i) :
    (∀ i : Nat, (i : Int) < childLoop keys q fuel low high + 1 → keys i ≤ q) ∧
      ∀ i : Nat, childLoop keys q fuel low high < i → i < size → q < keys i := by
  induction fuel generalizing low high with
  | zero =>
      simp only [childLoop]
      exact ⟨fun i hi => hlo i (by omega), hhi⟩
  | succ fuel ih =>
      simp only [childLoop]
      split
      next hle =>
        have hmid : int16 ((low + high) / 2) = (low + high) / 2 :=
          int16_of_mem (by omega) (by omega)
        rw [hmid]
        split
        next hk =>
          rw [int16_of_mem (by omega) (by omega)]
          refine ih _ _ (by omega) (by omega) (by omega) hh ?_ hhi
          intro i hi
          exact le_trans (hm i _ (by omega) (by omega)) hk
        next hk =>
          rw [int16_of_mem (by omega) (by omega)]
          refine ih _ _ (by omega) h0 (by omega) (by omega) hlo ?_
          intro i hi his
          exact lt_of_lt_of_le (not_le.mp hk) (hm _ i (by omega) his)
      next hle =>
        exact ⟨fun i hi => hlo i (by omega), hhi⟩

theorem childSlot_le {n : Node} (hsize : n.size ≤ 2 ^ 14) (q : Nat) : n.childSlot q ≤ n.size := by
  have h16 : int16 ((n.size : Int) - 1) = n.size - 1 := int16_of_mem (by omega) (by omega)
  have hb := childLoop_bounds n.keys hsize q n.size 0 (n.size - 1) (by omega) (by omega) (by omega)
  unfold childSlot
  rw [h16]
  omega

/-- `child` reads the separator behind the last key that is not above the searched
key. -/
theorem childSlot_spec {n : Node} (hm : Slots.Monotone n.keys n.size) (hsize : n.size ≤ 2 ^ 14)
    (q : Nat) :
    n.childSlot q ≤ n.size ∧ (∀ i < n.childSlot q, n.keys i ≤ q) ∧
      ∀ i, n.childSlot q ≤ i → i < n.size → q < n.keys i := by
  have h16 : int16 ((n.size : Int) - 1) = n.size - 1 := int16_of_mem (by omega) (by omega)
  obtain ⟨h2, h3⟩ := childLoop_spec hm hsize q n.size 0 (n.size - 1) (by omega)
    (by omega) (by omega) (by omega) (by intros; omega) (by intros; omega)
  refine ⟨childSlot_le hsize q, ?_⟩
  unfold childSlot
  rw [h16]
  exact ⟨fun i hi => h2 i (by omega), fun i hi => h3 i (by omega)⟩

/-- `child` returns one of the children, whatever the keys are. -/
theorem child_mem_children {n : Node} (hl : n.isLeaf = false) (hsize : n.size ≤ 2 ^ 14) (q : Nat) :
    n.child q ∈ n.children :=
  mem_children.mpr ⟨hl, _, childSlot_le hsize q, rfl⟩

/-! ## Insertion -/

/-- The insertion point separates the smaller keys from the others. -/
theorem pairs_index {n : Node} (hm : Slots.Monotone n.keys n.size) {β : Type*} (v : Nat → β)
    (key : Nat) (x : β) :
    Slots.pairs n.keys v (n.index key) ++ (key, x) :: (Slots.pairs n.keys v n.size).drop
      (n.index key) = OrderedMap.insertNew key x (Slots.pairs n.keys v n.size) := by
  have hle := n.index_le key
  have hlt : ∀ e ∈ Slots.pairs n.keys v (n.index key), e.1 < key := by
    intro e he
    obtain ⟨i, hi, rfl⟩ := Slots.mem_pairs.mp he
    exact Slots.lt_of_lt_lowerBound hm hi
  have hge : ∀ e ∈ (Slots.pairs n.keys v n.size).drop (n.index key), key ≤ e.1 := by
    intro e he
    rw [Slots.drop_pairs] at he
    obtain ⟨i, hi, rfl⟩ := Slots.mem_pairs.mp he
    exact Slots.le_of_lowerBound_le hm (Nat.le_add_right _ _) (by omega)
  rw [← OrderedMap.insertNew_eq_of_split hlt hge, ← Slots.take_pairs _ _ hle,
    List.take_append_drop]

theorem entries_insertValue {n : Node} (hl : n.isLeaf = true)
    (hm : Slots.Monotone n.keys n.size) (key : Nat) (value : Value) :
    (n.insertValue (n.index key) value key).entries =
      OrderedMap.insertNew key value n.entries := by
  rw [entries_of_leaf hl, entries_of_leaf (by exact hl), ← pairs_index hm]
  exact Slots.pairs_insertAt _ _ (n.index_le key) _ _

/-- A separator is inserted behind the key it belongs to, wherever that is. -/
theorem seps_insertSeparator_of_le {n : Node} (hl : n.isLeaf = false) {index : Nat}
    (hi : index ≤ n.size) (key : Nat) (s : Nat) :
    (n.insertSeparator index s key).seps =
      n.seps.take index ++ (key, some s) :: n.seps.drop index := by
  rw [seps_of_inner hl, seps_of_inner (by exact hl), Slots.take_pairs _ _ hi,
    ← Slots.pairs_insertAt _ _ hi, ← Slots.insertAt_succ _ hi]
  rfl

theorem seps_insertSeparator {n : Node} (hl : n.isLeaf = false)
    (hm : Slots.Monotone n.keys n.size) (key : Nat) (s : Nat) :
    (n.insertSeparator (n.index key) s key).seps =
      OrderedMap.insertNew key (some s) n.seps := by
  have hi := n.index_le key
  rw [seps_insertSeparator_of_le hl hi, seps_of_inner hl, Slots.take_pairs _ _ hi]
  exact pairs_index hm _ key (some s)

theorem first_insertSeparator (n : Node) (index : Nat) (s : Nat) (key : Nat) :
    (n.insertSeparator index s key).first = n.first := by
  have h0 : (n.insertSeparator index s key).separators 0 = n.separators 0 :=
    Slots.insertAt_of_lt n.separators (some s) (Nat.succ_pos index)
  simp only [first, h0]
  rfl

theorem children_insertSeparator {n : Node} (hl : n.isLeaf = false) {index : Nat}
    (hi : index ≤ n.size) (key : Nat) (s : Nat) :
    (n.insertSeparator index s key).children.Perm (some s :: n.children) := by
  have hl' : (n.insertSeparator index s key).isLeaf = false := hl
  rw [children_of_inner hl', children_of_inner hl, first_insertSeparator,
    seps_insertSeparator_of_le hl hi, List.map_append, List.map_cons]
  have hperm : (List.map Prod.snd (n.seps.take index) ++ some s ::
      List.map Prod.snd (n.seps.drop index)).Perm (some s :: n.seps.map Prod.snd) := by
    conv_rhs => rw [← List.take_append_drop index n.seps, List.map_append]
    exact List.perm_middle
  exact (hperm.cons _).trans (List.Perm.swap _ _ _)

theorem key_mem {n : Node} {j : Nat} (hj : j < n.size) : n.keys j ∈ n.liveKeys :=
  List.mem_map_of_mem (List.mem_range.mpr hj)

/-- The searched key is live exactly at its insertion point. -/
theorem mem_liveKeys_iff {n : Node} (hm : Slots.Monotone n.keys n.size) (key : Nat) :
    key ∈ n.liveKeys ↔ n.index key < n.size ∧ n.keys (n.index key) = key := by
  simp only [liveKeys, List.mem_map, List.mem_range]
  constructor
  · rintro ⟨i, hi, rfl⟩
    have hle : n.index (n.keys i) ≤ i := by
      by_contra hlt
      exact absurd (Slots.lt_of_lt_lowerBound hm (not_le.mp hlt)) (lt_irrefl _)
    refine ⟨by omega, le_antisymm (hm _ _ hle hi) ?_⟩
    exact Slots.le_of_lowerBound_le hm le_rfl (lt_of_le_of_lt hle hi)
  · rintro ⟨hi, he⟩
    exact ⟨_, hi, he⟩

/-- A live slot with the searched key is the insertion point. -/
theorem WellFormed.eq_index {c : Capacity} {n : Node} (h : n.WellFormed c) {i : Nat}
    (hi : i < n.size) : n.index (n.keys i) = i := by
  have hlive := (mem_liveKeys_iff h.monotone (n.keys i)).mp
    (List.mem_map.mpr ⟨i, List.mem_range.mpr hi, rfl⟩)
  have hstrict : ∀ a b, a < b → b < n.size → n.keys a < n.keys b := by
    intro a b hab hb
    have hs := h.sorted
    rw [liveKeys, List.pairwise_map] at hs
    have hlt := List.pairwise_iff_getElem.mp hs a b (by simp; omega) (by simpa using hb) hab
    simpa using hlt
  rcases Nat.lt_trichotomy (n.index (n.keys i)) i with hlt | heq | hgt
  · have := hstrict _ _ hlt hi
    omega
  · exact heq
  · have := hstrict _ _ hgt hlive.1
    omega

/-! ## Searching and updating a leaf -/

/-- What `update` does with a leaf: the slot is compared without asking whether it is live. -/
def updateValue (c : Capacity) (n : Node) (key : Nat) (value : Value) : Node :=
  if n.leafKey c (n.index key) = key then n.setValue (n.index key) value else n

/-- What `find` reads from a leaf: the slot is compared without asking whether it is live. -/
def findValue (c : Capacity) (n : Node) (key : Nat) : Value :=
  if n.leafKey c (n.index key) = key then n.values (n.index key) else 0

theorem leafKey_of_lt {c : Capacity} {n : Node} {i : Nat} (hi : i < c.maxItems) :
    n.leafKey c i = n.keys i := if_pos hi

theorem WellFormed.size_le_maxItems {c : Capacity} {n : Node} (h : n.WellFormed c)
    (hl : n.isLeaf = true) : n.size ≤ c.maxItems := by
  have hsize := h.size_le
  rw [capacity, if_pos hl] at hsize
  exact hsize

theorem WellFormed.leafKey_eq {c : Capacity} {n : Node} (h : n.WellFormed c)
    (hl : n.isLeaf = true) {i : Nat} (hi : i < n.size) : n.leafKey c i = n.keys i :=
  leafKey_of_lt (lt_of_lt_of_le hi (h.size_le_maxItems hl))

/-- A live key is found at its insertion point. -/
theorem WellFormed.leafKey_index {c : Capacity} {n : Node} (h : n.WellFormed c)
    (hl : n.isLeaf = true) {key : Nat} (hk : key ∈ n.liveKeys) :
    n.leafKey c (n.index key) = key := by
  rcases (mem_liveKeys_iff h.monotone key).mp hk with ⟨hi, he⟩
  rw [h.leafKey_eq hl hi, he]

theorem highKey_updateValue (c : Capacity) (n : Node) (key : Nat) (value : Value) :
    (n.updateValue c key value).highKey = n.highKey := by
  unfold updateValue
  split <;> rfl

/-- A write to the slot of the key, or to one that is not live, replaces the value of the key. -/
theorem entries_setValue {c : Capacity} {n : Node} (h : n.WellFormed c) (hl : n.isLeaf = true)
    {key : Nat} (value : Value)
    (hk : n.index key < n.size → n.keys (n.index key) = key) :
    (n.setValue (n.index key) value).entries = OrderedMap.replace key value n.entries := by
  have hl' : (n.setValue (n.index key) value).isLeaf = true := hl
  rw [entries_of_leaf hl, entries_of_leaf hl', Slots.pairs, Slots.pairs, OrderedMap.replace,
    List.map_map]
  refine List.map_congr_left fun i hi => ?_
  have hi := List.mem_range.mp hi
  by_cases hki : n.keys i = key
  · have hidx : n.index key = i := hki ▸ h.eq_index hi
    simp [setValue, hidx, hki]
  · have hne : i ≠ n.index key := by
      rintro rfl
      exact hki (hk hi)
    simp [setValue, hki, Slots.store_of_ne _ _ hne]

theorem entries_updateValue {c : Capacity} {n : Node} (h : n.WellFormed c) (hl : n.isLeaf = true)
    (key : Nat) (value : Value) :
    (n.updateValue c key value).entries = OrderedMap.replace key value n.entries := by
  unfold updateValue
  split
  next hk =>
    refine entries_setValue h hl value fun hi => ?_
    rw [← h.leafKey_eq hl hi, hk]
  next hk =>
    refine (OrderedMap.replace_of_notMem ?_).symm
    rw [← liveKeys_of_leaf hl]
    exact fun hm => hk (h.leafKey_index hl hm)

theorem findValue_eq {c : Capacity} {n : Node} (h : n.WellFormed c) (hl : n.isLeaf = true)
    {key : Nat} {value : Value} (hg : OrderedMap.get? key n.entries = some value) :
    n.findValue c key = value := by
  have hmem := OrderedMap.mem_of_get? hg
  rw [entries_of_leaf hl] at hmem
  obtain ⟨i, hi, he⟩ := Slots.mem_pairs.mp hmem
  obtain ⟨rfl, rfl⟩ := Prod.mk.inj he
  unfold findValue
  rw [h.eq_index hi, h.leafKey_eq hl hi, if_pos rfl]

end Node

end BLinkTree

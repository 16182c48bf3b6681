import BLinkTree.Serial

/-! # Trees in different memory

The slots behind the live ones hold whatever the memory held. Two trees that differ only
there stay so under every operation: insertions and splits read live slots only, and so
does the search for a key that is there.
-/

namespace BLinkTree

namespace Node

variable {c : Capacity} {n m : Node}

/-- Two nodes with the same header and the same live slots. -/
structure Alike (n m : Node) : Prop where
  isLeaf : m.isLeaf = n.isLeaf
  highKey : m.highKey = n.highKey
  rightSibling : m.rightSibling = n.rightSibling
  size : m.size = n.size
  keys : ∀ i < n.size, m.keys i = n.keys i
  values : n.isLeaf = true → ∀ i < n.size, m.values i = n.values i
  separators : n.isLeaf = false → ∀ i < n.size + 1, m.separators i = n.separators i

namespace Alike

theorem index (h : Alike n m) (key : Nat) : m.index key = n.index key := by
  unfold Node.index
  rw [h.size]
  exact Slots.lowerBound_congr h.keys key

theorem isFull (h : Alike n m) : m.isFull c = n.isFull c := by
  have hcap : m.capacity c = n.capacity c := by
    unfold Node.capacity
    rw [h.isLeaf]
  unfold Node.isFull
  rw [hcap, h.size]

theorem children (h : Alike n m) : m.children = n.children := by
  cases hl : n.isLeaf with
  | true => simp [Node.children, h.isLeaf, hl]
  | false =>
      simp only [Node.children, h.isLeaf, hl, h.size, Bool.false_eq_true, if_false]
      exact List.map_congr_left fun i hi => h.separators hl i (List.mem_range.mp hi)

theorem child (h : Alike n m) (hl : n.isLeaf = false) (hm : Slots.Monotone n.keys n.size)
    (hsize : n.size < 2 ^ 14) (key : Nat) : m.child key = n.child key := by
  have hm' : Slots.Monotone m.keys m.size := by
    intro i j hij hj
    rw [h.size] at hj
    rw [h.keys i (by omega), h.keys j hj]
    exact hm i j hij hj
  rcases childSlot_spec hm hsize.le key with ⟨h1, h2, h3⟩
  rcases childSlot_spec hm' (by rw [h.size]; exact hsize.le) key with ⟨k1, k2, k3⟩
  rw [h.size] at k1 k3
  -- both slots separate the same keys
  have hslot : m.childSlot key = n.childSlot key := by
    rcases Nat.lt_trichotomy (m.childSlot key) (n.childSlot key) with hlt | heq | hgt
    · have hlow := h2 _ hlt
      have hhigh := k3 _ le_rfl (by omega)
      rw [h.keys _ (by omega)] at hhigh
      omega
    · exact heq
    · have hlow := k2 _ hgt
      have hhigh := h3 _ le_rfl (by omega)
      rw [h.keys _ (by omega)] at hlow
      omega
  unfold Node.child
  rw [hslot]
  exact h.separators hl _ (by omega)

theorem insertValue (h : Alike n m) (hl : n.isLeaf = true) {i : Nat} (hi : i ≤ n.size)
    (value : Value) (key : Nat) :
    Alike (n.insertValue i value key) (m.insertValue i value key) where
  isLeaf := h.isLeaf
  highKey := h.highKey
  rightSibling := h.rightSibling
  size := congrArg (· + 1) h.size
  keys := by
    simp only [Node.insertValue, h.size]
    exact Slots.insertAt_congr key hi h.keys
  values := by
    intro _
    simp only [Node.insertValue, h.size]
    exact Slots.insertAt_congr value hi (h.values hl)
  separators := fun hl' => absurd (hl.symm.trans hl') (by decide)

theorem insertSeparator (h : Alike n m) (hl : n.isLeaf = false) {i : Nat} (hi : i ≤ n.size)
    (separator key : Nat) :
    Alike (n.insertSeparator i separator key) (m.insertSeparator i separator key) where
  isLeaf := h.isLeaf
  highKey := h.highKey
  rightSibling := h.rightSibling
  size := congrArg (· + 1) h.size
  keys := by
    simp only [Node.insertSeparator, h.size]
    exact Slots.insertAt_congr key hi h.keys
  values := fun hl' => absurd (hl.symm.trans hl') (by decide)
  separators := by
    intro _
    simp only [Node.insertSeparator, h.size]
    exact Slots.insertAt_congr (some separator) (by omega) (h.separators hl)

theorem truncate (h : Alike n m) {j : Nat} (hj : j ≤ n.size) :
    Alike { n with size := j } { m with size := j } where
  isLeaf := h.isLeaf
  highKey := h.highKey
  rightSibling := h.rightSibling
  size := rfl
  keys := fun i hi => h.keys i (lt_of_lt_of_le hi hj)
  values := fun hl i hi => h.values hl i (lt_of_lt_of_le hi hj)
  separators := fun hl i hi => h.separators hl i (lt_of_lt_of_le hi (Nat.succ_le_succ hj))

theorem relink (h : Alike n m) (right : Option Nat) (high : Nat) :
    Alike { n with rightSibling := right, highKey := high }
      { m with rightSibling := right, highKey := high } :=
  ⟨h.isLeaf, rfl, rfl, h.size, h.keys, h.values, h.separators⟩

theorem copied (h : Alike n m) (new new' : Node) (hl : n.isLeaf = false) {j count : Nat}
    (hj : j + count ≤ n.size) (h1 : new'.isLeaf = new.isLeaf) (h2 : new'.highKey = new.highKey)
    (h3 : new'.rightSibling = new.rightSibling) (hnew : new.isLeaf = false) (x : Option Nat) :
    Alike (n.copied new j count x) (m.copied new' j count x) where
  isLeaf := by
    rw [copied_isLeaf, copied_isLeaf]
    exact h1
  highKey := by
    rw [copied_highKey, copied_highKey]
    exact h2
  rightSibling := by
    have hl' : m.isLeaf = false := h.isLeaf.trans hl
    simpa [Node.copied, setSeparator, copy, hl, hl'] using h3
  size := rfl
  keys := by
    intro i hi
    rw [copied_keys hl, copied_keys (h.isLeaf.trans hl)]
    have hi' : i < count := hi
    exact Slots.memcpy_congr (fun s hs => h.keys _ (by omega)) (Nat.zero_le i) (by omega)
  values := by
    intro hl'
    rw [copied_isLeaf, hnew] at hl'
    exact absurd hl' (by decide)
  separators := by
    intro _ i hi
    have hi' : i < count + 1 := hi
    rw [copied_separators hl, copied_separators (h.isLeaf.trans hl)]
    by_cases h0 : i = 0
    · rw [h0, Slots.store_self, Slots.store_self]
    · rw [Slots.store_of_ne _ _ h0, Slots.store_of_ne _ _ h0]
      exact Slots.memcpy_congr (fun s hs => h.separators hl _ (by omega)) (by omega) (by omega)

theorem copiedLeaf {new new' : Node} (h : Alike n m) (hl : n.isLeaf = true) {j count : Nat}
    (hj : j + count ≤ n.size) (h1 : new'.isLeaf = new.isLeaf) (hnew : new.isLeaf = true) :
    Alike (n.copiedLeaf new j count) (m.copiedLeaf new' j count) where
  isLeaf := by
    rw [copiedLeaf_isLeaf, copiedLeaf_isLeaf]
    exact h1
  highKey := h.highKey
  rightSibling := h.rightSibling
  size := rfl
  keys := by
    intro i hi
    rw [copiedLeaf_keys hl, copiedLeaf_keys (h.isLeaf.trans hl)]
    have hi' : i < count := hi
    exact Slots.memcpy_congr (fun s hs => h.keys _ (by omega)) (Nat.zero_le i) (by omega)
  values := by
    intro _ i hi
    have hi' : i < count := hi
    have hl' : m.isLeaf = true := h.isLeaf.trans hl
    simp only [Node.copiedLeaf, copy, hl, hl', if_true]
    exact Slots.memcpy_congr (fun s hs => h.values hl _ (by omega)) (Nat.zero_le i) (by omega)
  separators := by
    intro hl'
    rw [copiedLeaf_isLeaf, hnew] at hl'
    exact absurd hl' (by decide)

/-! ## Splits -/

theorem splitLeaf {new new' : Node} (h : Alike n m) (hl : n.isLeaf = true)
    (hfull : c.maxItems ≤ n.size) (h1 : new'.isLeaf = new.isLeaf) (hnew : new.isLeaf = true)
    (key : Nat) (value : Value) :
    Alike (n.splitLeaf c new key value).1 (m.splitLeaf c new' key value).1 ∧
      Alike (n.splitLeaf c new key value).2 (m.splitLeaf c new' key value).2 := by
  have htwo := c.two_le_maxItems
  have hleft := h.truncate (j := c.maxItems / 2) (by omega)
  have hright : Alike (n.copiedLeaf new (c.maxItems / 2) (c.maxItems - c.maxItems / 2))
      (m.copiedLeaf new' (c.maxItems / 2) (c.maxItems - c.maxItems / 2)) :=
    h.copiedLeaf hl (by omega) h1 hnew
  have hright0 := hright.keys 0 (show 0 < c.maxItems - c.maxItems / 2 by omega)
  have hnewl := (copiedLeaf_isLeaf n new (c.maxItems / 2) (c.maxItems - c.maxItems / 2)).trans hnew
  rw [splitLeaf_eq, splitLeaf_eq]
  dsimp only
  rw [hright0]
  split
  · rw [hleft.index key]
    exact ⟨hleft.insertValue hl (index_le _ key) value key, hright⟩
  · rw [hright.index key]
    exact ⟨hleft, hright.insertValue hnewl (index_le _ key) value key⟩

theorem splitInner {new new' : Node} (h : Alike n m) (hl : n.isLeaf = false)
    (hfull : c.maxKeys ≤ n.size) (h1 : new'.isLeaf = new.isLeaf)
    (h3 : new'.rightSibling = new.rightSibling) (hnew : new.isLeaf = false)
    (key separator : Nat) :
    Alike (n.splitInner c new key separator).1 (m.splitInner c new' key separator).1 ∧
      Alike (n.splitInner c new key separator).2.1 (m.splitInner c new' key separator).2.1 ∧
      (m.splitInner c new' key separator).2.2 = (n.splitInner c new key separator).2.2 := by
  have htwo := c.two_le_maxKeys
  have hcopied : ∀ j count x, j + count ≤ n.size →
      Alike (n.copied { new with highKey := n.highKey } j count x)
        (m.copied { new' with highKey := m.highKey } j count x) :=
    fun j count x hj => h.copied { new with highKey := n.highKey }
      { new' with highKey := m.highKey } hl hj h1 h.highKey h3 hnew x
  have hsep1 := h.separators hl (c.maxKeys / 2) (by omega)
  have hsep2 := h.separators hl (c.maxKeys / 2 + 1) (by omega)
  rw [splitInner_eq, splitInner_eq]
  dsimp only
  rw [h.keys (c.maxKeys / 2 - 1) (by omega), h.keys (c.maxKeys / 2) (by omega), hsep1, hsep2]
  split
  · have hleft := h.truncate (j := c.maxKeys / 2 - 1) (by omega)
    rw [hleft.index key]
    exact ⟨hleft.insertSeparator hl (index_le _ key) separator key, hcopied _ _ _ (by omega), rfl⟩
  · split
    · exact ⟨h.truncate (by omega), hcopied _ _ _ (by omega), rfl⟩
    · have hright := hcopied (c.maxKeys / 2 + 1) (c.maxKeys - c.maxKeys / 2 - 1)
        (n.separators (c.maxKeys / 2 + 1)) (by omega)
      have hnewl : (n.copied { new with highKey := n.highKey } (c.maxKeys / 2 + 1)
          (c.maxKeys - c.maxKeys / 2 - 1) (n.separators (c.maxKeys / 2 + 1))).isLeaf = false :=
        (copied_isLeaf ..).trans hnew
      rw [hright.index key]
      exact ⟨h.truncate (by omega),
        hright.insertSeparator hnewl (index_le _ key) separator key, rfl⟩

end Alike

theorem alike_of_inner (hl : n.isLeaf = false) (hl' : m.isLeaf = false)
    (hhigh : m.highKey = n.highKey) (hright : m.rightSibling = n.rightSibling)
    (hsize : m.size = n.size) (hfirst : m.first = n.first) (hseps : m.seps = n.seps) :
    Alike n m := by
  rw [seps_of_inner hl, seps_of_inner hl', hsize] at hseps
  refine ⟨hl'.trans hl.symm, hhigh, hright, hsize, ?_, ?_, ?_⟩
  · exact fun i hi => (Slots.pairs_inj hseps hi).1
  · exact fun hleaf => absurd (hl.symm.trans hleaf) (by decide)
  · intro _ i hi
    cases i with
    | zero => simpa [first, hl, hl'] using hfirst
    | succ i => exact (Slots.pairs_inj hseps (Nat.lt_of_succ_lt_succ hi)).2

theorem splitLeaf_size_pos (n new : Node) (key : Nat) (value : Value) :
    0 < (n.splitLeaf c new key value).2.size := by
  have htwo := c.two_le_maxItems
  rw [splitLeaf_eq]
  dsimp only
  split
  · show 0 < c.maxItems - c.maxItems / 2
    omega
  · show 0 < c.maxItems - c.maxItems / 2 + 1
    omega

namespace Alike

/-! ## Searches -/

theorem leafKey (h : Alike n m) (hl : n.isLeaf = true) (hw : n.WellFormed c) {i : Nat}
    (hi : i < n.size) : m.leafKey c i = n.leafKey c i := by
  have hlt : i < c.maxItems := lt_of_lt_of_le hi (hw.size_le_maxItems hl)
  rw [leafKey_of_lt hlt, leafKey_of_lt hlt, h.keys i hi]

theorem findValue (h : Alike n m) (hl : n.isLeaf = true) (hw : n.WellFormed c) {key : Nat}
    (hi : n.index key < n.size) : m.findValue c key = n.findValue c key := by
  unfold Node.findValue
  rw [h.index key, h.leafKey hl hw hi, h.values hl _ hi]

theorem updateValue (h : Alike n m) (hl : n.isLeaf = true) (hw : n.WellFormed c) {key : Nat}
    (hi : n.index key < n.size) (value : Value) :
    Alike (n.updateValue c key value) (m.updateValue c key value) := by
  unfold Node.updateValue
  rw [h.index key, h.leafKey hl hw hi]
  split
  · refine ⟨h.isLeaf, h.highKey, h.rightSibling, h.size, h.keys, fun _ i hin => ?_, h.separators⟩
    simp only [setValue, Slots.store]
    split
    · rfl
    · exact h.values hl i hin
  · exact h

end Alike

end Node

namespace Tree

variable {c : Capacity} {t t' : Tree} {n k : Nat}

/-- Two trees with the same nodes up to dead slots. -/
structure Alike (t t' : Tree) : Prop where
  count : t'.count = t.count
  root : t'.root = t.root
  height : t'.height = t.height
  parent : ∀ n < t.count, t'.parent n = t.parent n
  node : ∀ n < t.count, (t.node n).Alike (t'.node n)

theorem alike_empty (memory memory' : Nat → Memory) : (empty memory).Alike (empty memory') where
  count := rfl
  root := rfl
  height := rfl
  parent := fun _ _ => rfl
  node := by
    intro n _
    refine ⟨rfl, rfl, rfl, rfl, ?_, ?_, ?_⟩
    · exact fun i hi => absurd hi (Nat.not_lt_zero i)
    · exact fun _ i hi => absurd hi (Nat.not_lt_zero i)
    · exact fun hl => absurd hl (by simp [empty, Node.create])

namespace Alike

theorem setNode (h : Alike t t') {a b : Node} (hab : a.Alike b) (n : Nat) :
    Alike (t.setNode n a) (t'.setNode n b) := by
  refine ⟨h.count, h.root, h.height, h.parent, fun m hm => ?_⟩
  by_cases hmn : m = n
  · rw [hmn, setNode_node_self, setNode_node_self]
    exact hab
  · rw [setNode_node_of_ne _ _ hmn, setNode_node_of_ne _ _ hmn]
    exact h.node m hm

theorem setParent (h : Alike t t') (n : Nat) (p : Option Nat) :
    Alike (t.setParent n p) (t'.setParent n p) := by
  refine ⟨h.count, h.root, h.height, fun m hm => ?_, h.node⟩
  simp only [Tree.setParent, Slots.store]
  split
  · rfl
  · exact h.parent m hm

theorem setParents {t₁ : Tree} {p : Nat} {l : List (Option Nat)} (h : Alike t t')
    (he : t.setParents p l = some t₁) : ∃ t₁', t'.setParents p l = some t₁' ∧ Alike t₁ t₁' := by
  induction l generalizing t t' with
  | nil =>
      rw [Tree.setParents, Option.some.injEq] at he
      subst he
      exact ⟨t', rfl, h⟩
  | cons s l ih =>
      cases s with
      | none => simp [Tree.setParents] at he
      | some s => exact ih (h.setParent s (some p)) he

/-- A node, a new last node and the parents change. -/
theorem grow (h : Alike t t') {f f' : Nat → Node} {p p' : Nat → Option Nat} {left left' new new' : Node}
    (hleft : left.Alike left') (hnew : new.Alike new') (hf : ∀ m < t.count, f m = t.node m)
    (hf' : ∀ m < t.count, f' m = t'.node m) (hp : ∀ m < t.count + 1, p' m = p m) (n : Nat) :
    Alike
      { t with
        node := Slots.store (Slots.store f n left) t.count new
        parent := p, count := t.count + 1 }
      { t' with
        node := Slots.store (Slots.store f' n left') t'.count new'
        parent := p', count := t'.count + 1 } := by
  refine ⟨by simp only [h.count], h.root, h.height, hp, fun m hm => ?_⟩
  have hm' : m < t.count + 1 := hm
  show Node.Alike (Slots.store (Slots.store f n left) t.count new m)
    (Slots.store (Slots.store f' n left') t'.count new' m)
  rw [h.count]
  by_cases hmc : m = t.count
  · rw [hmc, Slots.store_self, Slots.store_self]
    exact hnew
  · rw [Slots.store_of_ne _ _ hmc, Slots.store_of_ne _ _ hmc]
    by_cases hmn : m = n
    · rw [hmn, Slots.store_self, Slots.store_self]
      exact hleft
    · rw [Slots.store_of_ne _ _ hmn, Slots.store_of_ne _ _ hmn, hf m (by omega), hf' m (by omega)]
      exact h.node m (by omega)

theorem store_parent (h : Alike t t') (hn : n < t.count) :
    ∀ m < t.count + 1, Slots.store t'.parent t'.count (t'.parent n) m =
      Slots.store t.parent t.count (t.parent n) m := by
  intro m hm
  rw [h.count, h.parent n hn]
  by_cases hmc : m = t.count
  · rw [hmc, Slots.store_self, Slots.store_self]
  · rw [Slots.store_of_ne _ _ hmc, Slots.store_of_ne _ _ hmc]
    exact h.parent m (by omega)

/-! ## Operations -/

theorem leafHalves (h : Alike t t') (hn : n < t.count) (hl : (t.node n).isLeaf = true)
    (hf : (t.node n).isFull c = true) (v : Value) :
    (t.leafHalves c n k v).1.Alike (t'.leafHalves c n k v).1 ∧
      (t.leafHalves c n k v).2.Alike (t'.leafHalves c n k v).2 := by
  have hfull : c.maxItems ≤ (t.node n).size := by
    simpa [Node.isFull, Node.capacity, hl] using hf
  unfold Tree.leafHalves
  apply (h.node n hn).splitLeaf hl hfull
  · rfl
  · rfl

theorem splitLeafNode (h : Alike t t') (hn : n < t.count) (hl : (t.node n).isLeaf = true)
    (hf : (t.node n).isFull c = true) (v : Value) :
    Alike (t.splitLeafNode c n k v).1 (t'.splitLeafNode c n k v).1 ∧
      ((t'.splitLeafNode c n k v).1.node t'.count).keys 0 =
        ((t.splitLeafNode c n k v).1.node t.count).keys 0 := by
  rcases h.leafHalves hn hl hf (k := k) v with ⟨h1, h2⟩
  have hkey : (t'.leafHalves c n k v).2.keys 0 = (t.leafHalves c n k v).2.keys 0 :=
    h2.keys 0 (Node.splitLeaf_size_pos ..)
  have hleft : Node.Alike
      { (t.leafHalves c n k v).1 with
        rightSibling := some t.count, highKey := (t.leafHalves c n k v).2.keys 0 }
      { (t'.leafHalves c n k v).1 with
        rightSibling := some t'.count, highKey := (t'.leafHalves c n k v).2.keys 0 } := by
    rw [h.count, hkey]
    exact h1.relink (some t.count) ((t.leafHalves c n k v).2.keys 0)
  rw [splitLeafNode_new, splitLeafNode_new]
  refine ⟨?_, hkey⟩
  rw [splitLeafNode_eq, splitLeafNode_eq]
  exact h.grow hleft h2 (fun m hm => Slots.store_of_ne _ _ hm.ne)
    (fun m hm => Slots.store_of_ne _ _ (by rw [h.count]; exact hm.ne)) (h.store_parent hn) n

/-- `insert_into_leaf`. -/
theorem insertIntoLeaf (h : Alike t t') (hn : n < t.count) (hl : (t.node n).isLeaf = true)
    (k : Nat) (v : Value) :
    Alike (t.insertIntoLeaf c n k v).1 (t'.insertIntoLeaf c n k v).1 ∧
      (t'.insertIntoLeaf c n k v).2 = (t.insertIntoLeaf c n k v).2 := by
  have hnode := h.node n hn
  have hi := hnode.index k
  have hfound : ((t'.node n).index k < (t'.node n).size ∧
      (t'.node n).keys ((t'.node n).index k) = k) ↔
      ((t.node n).index k < (t.node n).size ∧ (t.node n).keys ((t.node n).index k) = k) := by
    rw [hi, hnode.size]
    refine and_congr_right fun hlt => ?_
    rw [hnode.keys _ hlt]
  have hfull : (t'.node n).isFull c = (t.node n).isFull c := hnode.isFull
  rcases insertIntoLeaf_cases c t n k v with ⟨hk, he⟩ | ⟨hk, hf, he⟩ | ⟨hk, hf, he⟩
  · have he' : t'.insertIntoLeaf c n k v = (t', none) := if_pos (hfound.mpr hk)
    rw [he, he']
    exact ⟨h, rfl⟩
  · rcases insertIntoLeaf_cases c t' n k v with ⟨hk', _⟩ | ⟨_, _, he'⟩ | ⟨_, hf', _⟩
    · exact absurd (hfound.mp hk') hk
    · rw [he, he', hi]
      exact ⟨h.setNode (hnode.insertValue hl (Node.index_le _ k) v k) n, rfl⟩
    · rw [hfull, hf] at hf'
      exact absurd hf' (by decide)
  · rcases insertIntoLeaf_cases c t' n k v with ⟨hk', _⟩ | ⟨_, hf', _⟩ | ⟨_, _, he'⟩
    · exact absurd (hfound.mp hk') hk
    · rw [hfull, hf] at hf'
      exact absurd hf' (by decide)
    · rcases h.splitLeafNode hn hl hf (k := k) v with ⟨h1, h2⟩
      rw [he, he', h2, h.count]
      exact ⟨h1, rfl⟩

theorem innerHalves (h : Alike t t') (hn : n < t.count) (hl : (t.node n).isLeaf = false)
    (hf : (t.node n).isFull c = true) (s x : Nat) :
    (t.innerHalves c n s x).1.Alike (t'.innerHalves c n s x).1 ∧
      (t.innerHalves c n s x).2.1.Alike (t'.innerHalves c n s x).2.1 ∧
      (t'.innerHalves c n s x).2.2 = (t.innerHalves c n s x).2.2 := by
  have hfull : c.maxKeys ≤ (t.node n).size := by
    simpa [Node.isFull, Node.capacity, hl] using hf
  unfold Tree.innerHalves
  apply (h.node n hn).splitInner hl hfull
  · rfl
  · rfl
  · rfl

theorem innerBase (h : Alike t t') (hn : n < t.count) (hl : (t.node n).isLeaf = false)
    (hf : (t.node n).isFull c = true) (s x : Nat) :
    Alike (t.innerBase c n s x) (t'.innerBase c n s x) ∧
      (t'.innerRight c n s x).children = (t.innerRight c n s x).children := by
  rcases h.innerHalves hn hl hf s x with ⟨h1, h2, h3⟩
  have hleft : (t.innerLeft c n s x).Alike (t'.innerLeft c n s x) := by
    unfold Tree.innerLeft
    rw [h.count, h3]
    exact h1.relink (some t.count) (t.innerHalves c n s x).2.2
  have hright : (t.innerRight c n s x).Alike (t'.innerRight c n s x) :=
    ⟨h2.isLeaf, h2.highKey, h1.rightSibling, h2.size, h2.keys, h2.values, h2.separators⟩
  have hfull : c.maxKeys ≤ (t.node n).size := by
    simpa [Node.isFull, Node.capacity, hl] using hf
  have hparent : ∀ m < t.count + 1, t'.innerParent c n s x m = t.innerParent c n s x m := by
    intro m hm
    have htwo := c.two_le_maxKeys
    have hstore := h.store_parent hn m hm
    unfold Tree.innerParent
    rw [(h.node n hn).keys _ (by omega)]
    split
    · by_cases hmx : m = x
      · rw [hmx, Slots.store_self, Slots.store_self]
      · rw [Slots.store_of_ne _ _ hmx, Slots.store_of_ne _ _ hmx]
        exact hstore
    · exact hstore
  refine ⟨?_, hright.children⟩
  exact h.grow hleft hright (fun m hm => Slots.store_of_ne _ _ hm.ne)
    (fun m hm => Slots.store_of_ne _ _ (by rw [h.count]; exact hm.ne)) hparent n

/-- `insert_into_inner`. -/
theorem insertIntoInner (h : Alike t t') (hn : n < t.count) (hl : (t.node n).isLeaf = false)
    {s x : Nat} {t₁ : Tree} {up : Option (Nat × Nat)}
    (he : t.insertIntoInner c n s x = some (t₁, up)) :
    ∃ t₁', t'.insertIntoInner c n s x = some (t₁', up) ∧ Alike t₁ t₁' := by
  have hnode := h.node n hn
  have hfull : (t'.node n).isFull c = (t.node n).isFull c := hnode.isFull
  unfold Tree.insertIntoInner at he ⊢
  dsimp only at he ⊢
  rw [hfull]
  cases hf : (t.node n).isFull c with
  | false =>
      rw [hf, if_pos rfl, Option.some.injEq, Prod.mk.injEq] at he
      rcases he with ⟨rfl, rfl⟩
      rw [if_pos rfl, hnode.index s]
      exact ⟨_, rfl, h.setNode (hnode.insertSeparator hl (Node.index_le _ s) x s) n⟩
  | true =>
      rcases h.innerBase hn hl hf s x with ⟨hbase, hchildren⟩
      rw [hf, if_neg (by decide), splitInnerNode_eq, Option.map_map, Option.map_eq_some_iff] at he
      rcases he with ⟨t₂, hset, heq⟩
      rcases hbase.setParents hset with ⟨t₂', hset', halike⟩
      rw [if_neg (by decide), splitInnerNode_eq, Option.map_map, hchildren, h.count, hset']
      simp only [Function.comp_apply, Prod.mk.injEq] at heq
      rcases heq with ⟨rfl, rfl⟩
      refine ⟨t₂', ?_, halike⟩
      simp [(h.innerHalves hn hl hf s x).2.2]

/-- `create_new_root`. -/
theorem createNewRoot (h : Alike t t') (left right key : Nat) :
    Alike (t.createNewRoot left right key) (t'.createNewRoot left right key) := by
  refine ⟨congrArg (· + 1) h.count, h.count, congrArg (· + 1) h.height, fun m hm => ?_,
    fun m hm => ?_⟩
  · have hm' : m < t.count + 1 := hm
    simp only [Tree.createNewRoot, Tree.setNode, Tree.createNode, Tree.setParent, Slots.store,
      h.count]
    split
    · rfl
    · split
      · rfl
      · split
        · rfl
        · exact h.parent m (by omega)
  · have hm' : m < t.count + 1 := hm
    have hr := createNewRoot_isNewRoot t left right key
    have hr' := createNewRoot_isNewRoot t' left right key
    by_cases hmc : m = t.count
    · have hnode := Node.alike_of_inner hr.isLeaf hr'.isLeaf (hr'.highKey.trans hr.highKey.symm)
        (hr'.rightSibling.trans hr.rightSibling.symm) (hr'.size.trans hr.size.symm)
        (hr'.first.trans hr.first.symm) (hr'.seps.trans hr.seps.symm)
      rw [h.count] at hnode
      rw [hmc]
      exact hnode
    · rw [hr.frame m hmc, hr'.frame m (by rw [h.count]; exact hmc)]
      exact h.node m (by omega)

end Alike

end Tree

/-! ## Serial operations -/

variable {c : Capacity} {t t' t₁ : Tree} {g : Ghost Nat} {k n m : Nat} {path path' : List Nat}

theorem Descent.alike (h : Descent t k n path m path') (ha : t.Alike t') (hinv : Inv c t g) :
    Descent t' k n path m path' := by
  induction h with
  | @leaf n path hn hl hh =>
      have hnode := ha.node n hn
      refine .leaf (by rw [ha.count]; exact hn) (hnode.isLeaf.trans hl) ?_
      rw [hnode.highKey]
      exact hh
  | @inner n y m path path' hn hl hh hy hne _ ih =>
      have hnode := ha.node n hn
      have hw := (hinv.node n hn).wellFormed
      have hsize := lt_of_le_of_lt hw.size_le ((t.node n).capacity_lt c)
      refine .inner (by rw [ha.count]; exact hn) (hnode.isLeaf.trans hl) ?_ ?_ ?_ ih
      · rw [hnode.highKey]
        exact hh
      · rw [hnode.child hl hw.monotone hsize]
        exact hy
      · rw [hnode.rightSibling]
        exact hne

theorem Ascent.alike {up : Option (Nat × Nat)} (h : Ascent c k t m path up t₁)
    (ha : t.Alike t') : ∃ t₁', Ascent c k t' m path up t₁' ∧ t₁.Alike t₁' := by
  induction h generalizing t' with
  | stop => exact ⟨t', .stop, ha⟩
  | @newRoot t s x hroot hpar =>
      have hpar' : t'.parent t'.root = none := by
        rw [ha.root, ha.parent _ hroot]
        exact hpar
      have hroot' : t'.root < t'.count := by
        rw [ha.root, ha.count]
        exact hroot
      have hup : Ascent c k t' t'.root [] (some (x, s)) (t'.createNewRoot t'.root x s) :=
        .newRoot hroot' hpar'
      rw [ha.root] at hup
      exact ⟨_, hup, ha.createNewRoot t.root x s⟩
  | @parent t t₁ t₂ m p s x path up hp hl hk hs hm hparm hx hparx hins _ ih =>
      have hnode := ha.node p hp
      rcases ha.insertIntoInner hp hl hins with ⟨t₁', hins', ha₁⟩
      rcases ih ha₁ with ⟨t₂', hup, ha₂⟩
      refine ⟨t₂', .parent ?_ (hnode.isLeaf.trans hl) ?_ ?_ ?_ ?_ ?_ ?_ hins' hup, ha₂⟩
      · rw [ha.count]
        exact hp
      · rw [hnode.highKey]
        exact hk
      · rw [hnode.highKey]
        exact hs
      · rw [ha.count]
        exact hm
      · rw [ha.parent m hm]
        exact hparm
      · rw [ha.count]
        exact hx
      · rw [ha.parent x hx]
        exact hparx

/-- An insert, or an operation on a key that is there. -/
def Present (m : Nat → Option Value) : Op → Prop
  | .insert _ _ => True
  | .update k _ => (m k).isSome
  | .find k => (m k).isSome

/-- A key that is there is at its insertion point in the leaf that covers it. -/
theorem Descent.index_lt (h : Descent t k t.root path m path') (hinv : Inv c t g)
    (hk : (OrderedMap.get? k t.content).isSome) : (t.node m).index k < (t.node m).size := by
  have hlow := h.low_le hinv (by rw [hinv.low_root]; exact Nat.zero_le k)
  rw [hinv.get?_content h.lt_count h.isLeaf hlow h.key_lt] at hk
  have hmem : k ∈ (t.node m).liveKeys := by
    rw [Node.liveKeys_of_leaf h.isLeaf]
    by_contra hnot
    rw [OrderedMap.get?_eq_none_iff.mpr hnot] at hk
    exact absurd hk (by simp)
  exact ((Node.mem_liveKeys_iff (hinv.node m h.lt_count).wellFormed.monotone k).mp hmem).1

theorem Serial.alike {o : Op} {r : Value} (h : Serial c t o t₁ r) (ha : t.Alike t')
    (hinv : Inv c t g) (hp : Present (fun k => OrderedMap.get? k t.content) o) :
    ∃ t₁', Serial c t' o t₁' r ∧ t₁.Alike t₁' := by
  have hdown : ∀ {k m path}, Descent t k t.root [] m path → Descent t' k t'.root [] m path := by
    intro k m path hd
    rw [ha.root]
    exact hd.alike ha hinv
  have hwf : ∀ {m}, m < t.count → (t.node m).WellFormed c := fun hm => (hinv.node _ hm).wellFormed
  cases h with
  | @insert k n v path _ hd hasc =>
      rcases ha.insertIntoLeaf hd.lt_count hd.isLeaf k v with ⟨ha₁, hup⟩
      rcases hasc.alike ha₁ with ⟨t₁', hasc', ha'⟩
      rw [← hup] at hasc'
      exact ⟨t₁', .insert (hdown hd) hasc', ha'⟩
  | @update k n v path hd =>
      have hi := hd.index_lt hinv hp
      exact ⟨_, .update (hdown hd),
        ha.setNode ((ha.node n hd.lt_count).updateValue hd.isLeaf (hwf hd.lt_count) hi v) n⟩
  | @find k n path hd =>
      have hi := hd.index_lt hinv hp
      have hfind : Serial c t' (.find k) t' ((t'.node n).findValue c k) := .find (hdown hd)
      rw [(ha.node n hd.lt_count).findValue hd.isLeaf (hwf hd.lt_count) hi] at hfind
      exact ⟨t', hfind, ha⟩

end BLinkTree

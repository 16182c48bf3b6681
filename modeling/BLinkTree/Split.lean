import BLinkTree.Tree

/-! # What the two splits do to the live slots

Both splits are "insert, then cut": the live part of the left node followed by the
live part of the new node is the sorted insertion into the old live part, an inner
split moving the binding at the cut up as key and first separator of the new node.
The three branches of `split_inner_node` reach the same cut.
-/

namespace BLinkTree

namespace Node

theorem entries_truncate {n : Node} (h : n.isLeaf = true) {m : Nat} (hm : m ≤ n.size) :
    ({ n with size := m } : Node).entries = n.entries.take m := by
  rw [entries_of_leaf h, entries_of_leaf (by exact h), Slots.take_pairs _ _ hm]

theorem seps_truncate {n : Node} (h : n.isLeaf = false) {m : Nat} (hm : m ≤ n.size) :
    ({ n with size := m } : Node).seps = n.seps.take m := by
  rw [seps_of_inner h, seps_of_inner (by exact h), Slots.take_pairs _ _ hm]

theorem monotone_truncate {n : Node} (h : Slots.Monotone n.keys n.size) {m : Nat}
    (hm : m ≤ n.size) :
    Slots.Monotone ({ n with size := m } : Node).keys ({ n with size := m } : Node).size :=
  fun i j hij hj => h i j hij (lt_of_lt_of_le hj hm)

/-! ## Copying into a new inner node -/

/-- A new inner node that got `count` separators and a first one. -/
def copied (n new : Node) (fromIndex count : Nat) (x : Option Nat) : Node :=
  { (n.copy new fromIndex count).setSeparator 0 x with size := count }

theorem copied_isLeaf (n new : Node) (j count : Nat) (x : Option Nat) :
    (n.copied new j count x).isLeaf = new.isLeaf := by
  simp only [copied, setSeparator, copy]
  split <;> rfl

theorem copied_highKey (n new : Node) (j count : Nat) (x : Option Nat) :
    (n.copied new j count x).highKey = new.highKey := by
  simp only [copied, setSeparator, copy]
  split <;> rfl

theorem copied_keys {n : Node} (hn : n.isLeaf = false) (new : Node) (j count : Nat)
    (x : Option Nat) :
    (n.copied new j count x).keys = Slots.memcpy new.keys 0 n.keys j count := by
  simp [copied, setSeparator, copy, hn]

theorem copied_separators {n : Node} (hn : n.isLeaf = false) (new : Node) (j count : Nat)
    (x : Option Nat) :
    (n.copied new j count x).separators =
      Slots.store (Slots.memcpy new.separators 1 n.separators (j + 1) count) 0 x := by
  simp [copied, setSeparator, copy, hn]

theorem first_copied {n new : Node} (hn : n.isLeaf = false) (hnew : new.isLeaf = false)
    (j count : Nat) (x : Option Nat) : (n.copied new j count x).first = x := by
  simp [first, copied_isLeaf, hnew, copied_separators hn]

theorem seps_copied {n new : Node} (hn : n.isLeaf = false) (hnew : new.isLeaf = false)
    {j count : Nat} (h : j + count = n.size) (x : Option Nat) :
    (n.copied new j count x).seps = n.seps.drop j := by
  have hleaf := copied_isLeaf n new j count x
  rw [seps_of_inner (hleaf.trans hnew), seps_of_inner hn, Slots.drop_pairs,
    copied_keys hn, copied_separators hn, show n.size - j = count from by omega]
  refine Slots.pairs_congr (fun i hi => ?_) (fun i hi => ?_)
  · have hi' : i < count := hi
    simp [Slots.memcpy, hi']
  · have hi' : i < count := hi
    rw [Slots.store_of_ne _ _ (Nat.succ_ne_zero i), Slots.memcpy, if_pos (by omega)]
    congr 1
    omega

theorem monotone_copied {n new : Node} (hn : n.isLeaf = false)
    (hm : Slots.Monotone n.keys n.size) {j count : Nat} (h : j + count = n.size)
    (x : Option Nat) :
    Slots.Monotone (n.copied new j count x).keys (n.copied new j count x).size := by
  intro a b hab hb
  have hb' : b < count := hb
  rw [copied_keys hn, Slots.memcpy, Slots.memcpy, if_pos (by omega), if_pos (by omega)]
  exact hm _ _ (by omega) (by omega)

/-! ## The inner split -/

/-- What `splitInner` does whatever the keys are: it keeps the links and hands every child
and the new separator to one of the two nodes. -/
structure InnerShape (c : Capacity) (inner : Node) (separator : Nat) (r : Node × Node × Nat) :
    Prop where
  left_isLeaf : r.1.isLeaf = false
  left_highKey : r.1.highKey = inner.highKey
  left_right : r.1.rightSibling = inner.rightSibling
  left_first : r.1.first = inner.first
  left_size : r.1.size = c.maxKeys / 2
  new_isLeaf : r.2.1.isLeaf = false
  new_highKey : r.2.1.highKey = inner.highKey
  new_size : r.2.1.size = c.maxKeys - c.maxKeys / 2
  children : (r.1.children ++ r.2.1.children).Perm (some separator :: inner.children)

/-- What `splitInner` owes the tree: `l` is the sorted insertion into the old
separators. -/
structure InnerCut (c : Capacity) (inner : Node) (separator : Nat) (l : List (Nat × Option Nat))
    (r : Node × Node × Nat) : Prop extends InnerShape c inner separator r where
  cut : l = r.1.seps ++ (r.2.2, r.2.1.first) :: r.2.1.seps

/-- The three branches of `split_inner_node`, with the copied node named. -/
theorem splitInner_eq (c : Capacity) (inner new : Node) (key : Nat) (separator : Nat) :
    inner.splitInner c new key separator =
      let m := c.maxKeys / 2
      let base : Node := { new with highKey := inner.highKey }
      if key < inner.keys (m - 1) then
        let left : Node := { inner with size := m - 1 }
        (left.insertSeparator (left.index key) separator key,
          inner.copied base m (c.maxKeys - m) (inner.separators m), inner.keys (m - 1))
      else if key < inner.keys m then
        ({ inner with size := m }, inner.copied base m (c.maxKeys - m) (some separator), key)
      else
        let right := inner.copied base (m + 1) (c.maxKeys - m - 1) (inner.separators (m + 1))
        ({ inner with size := m }, right.insertSeparator (right.index key) separator key,
          inner.keys m) :=
  rfl

section InnerSplit

variable {c : Capacity} {inner base : Node} {key : Nat} {separator : Nat}

theorem seps_eq_append (hi : inner.isLeaf = false) {j : Nat} (hj : j < inner.size) :
    inner.seps = inner.seps.take j ++ (inner.keys j, inner.separators (j + 1)) ::
      inner.seps.drop (j + 1) := by
  rw [seps_of_inner hi]
  exact Slots.pairs_eq_append inner.keys (fun i => inner.separators (i + 1)) hj

theorem children_truncate (hi : inner.isLeaf = false) {m : Nat} (hm : m ≤ inner.size) :
    ({ inner with size := m } : Node).children =
      inner.first :: (inner.seps.take m).map Prod.snd := by
  have hl : ({ inner with size := m } : Node).isLeaf = false := hi
  rw [children_of_inner hl, seps_truncate hi hm]
  rfl

theorem children_copied (hi : inner.isLeaf = false) (hb : base.isLeaf = false)
    {j count : Nat} (h : j + count = inner.size) (x : Option Nat) :
    (inner.copied base j count x).children = x :: (inner.seps.drop j).map Prod.snd := by
  rw [children_of_inner ((copied_isLeaf ..).trans hb), first_copied hi hb, seps_copied hi hb h]

/-- The children of an inner node around one of its keys. -/
theorem children_eq_append (hi : inner.isLeaf = false) {j : Nat} (hj : j < inner.size) :
    inner.children = (inner.first :: (inner.seps.take j).map Prod.snd) ++
      inner.separators (j + 1) :: (inner.seps.drop (j + 1)).map Prod.snd := by
  rw [children_of_inner hi]
  conv_lhs => rw [seps_eq_append hi hj]
  simp

theorem splitInner_shape {new : Node} (hi : inner.isLeaf = false)
    (hfull : inner.size = c.maxKeys) (hnew : new.isLeaf = false) :
    InnerShape c inner separator (inner.splitInner c new key separator) := by
  have h2 := c.two_le_maxKeys
  have hb : ({ new with highKey := inner.highKey } : Node).isLeaf = false := hnew
  obtain ⟨m, hmdef⟩ : ∃ m, m = c.maxKeys / 2 := ⟨_, rfl⟩
  have hcut1 := children_eq_append hi (show m - 1 < inner.size by omega)
  have hcut2 := children_eq_append hi (show m < inner.size by omega)
  rw [show m - 1 + 1 = m by omega] at hcut1
  rw [splitInner_eq, ← hmdef]
  dsimp only
  split
  · -- the new separator goes to the left of the cut
    have hleft := children_insertSeparator (n := { inner with size := m - 1 }) hi
      (index_le _ key) key separator
    refine ⟨hi, rfl, rfl, first_insertSeparator { inner with size := m - 1 } _ _ _, ?_,
      (copied_isLeaf ..).trans hb, copied_highKey .., by rw [← hmdef]; rfl, ?_⟩
    · show m - 1 + 1 = _
      omega
    · rw [children_truncate hi (by omega)] at hleft
      rw [children_copied hi hb (show m + (c.maxKeys - m) = inner.size by omega), hcut1]
      exact hleft.append_right _
  · split
    · -- the new separator becomes the first one of the new node
      refine ⟨hi, rfl, rfl, rfl, hmdef, (copied_isLeaf ..).trans hb, copied_highKey ..,
        by rw [← hmdef]; rfl, ?_⟩
      have hall : inner.children = (inner.first :: (inner.seps.take m).map Prod.snd) ++
          (inner.seps.drop m).map Prod.snd := by
        rw [children_of_inner hi, List.cons_append, ← List.map_append, List.take_append_drop]
      rw [children_truncate hi (by omega), children_copied hi hb
        (show m + (c.maxKeys - m) = inner.size by omega), hall]
      exact List.perm_middle
    · -- the new separator goes to the right of the cut
      have hleaf : (inner.copied { new with highKey := inner.highKey } (m + 1) (c.maxKeys - m - 1)
          (inner.separators (m + 1))).isLeaf = false := (copied_isLeaf ..).trans hb
      have hright := children_insertSeparator hleaf (index_le _ key) key separator
      refine ⟨hi, rfl, rfl, rfl, hmdef, hleaf, ?_, ?_, ?_⟩
      · simp only [insertSeparator, copied_highKey]
      · show c.maxKeys - m - 1 + 1 = _
        omega
      · rw [children_copied hi hb (show m + 1 + (c.maxKeys - m - 1) = inner.size by omega)]
          at hright
        rw [children_truncate hi (by omega), hcut2]
        exact (hright.append_left _).trans List.perm_middle

theorem take_seps_le (hi : inner.isLeaf = false) (hm : Slots.Monotone inner.keys inner.size)
    {j : Nat} (hj : j < inner.size) {e : Nat × Option Nat}
    (he : e ∈ inner.seps.take (j + 1)) : e.1 ≤ inner.keys j := by
  rw [seps_of_inner hi, Slots.take_pairs _ _ (by omega)] at he
  obtain ⟨i, hi', rfl⟩ := Slots.mem_pairs.mp he
  exact hm i j (by omega) hj

theorem le_drop_seps (hi : inner.isLeaf = false) (hm : Slots.Monotone inner.keys inner.size)
    {j : Nat} {e : Nat × Option Nat} (he : e ∈ inner.seps.drop j) : inner.keys j ≤ e.1 := by
  rw [seps_of_inner hi, Slots.drop_pairs] at he
  obtain ⟨i, hi', rfl⟩ := Slots.mem_pairs.mp he
  exact hm j (j + i) (by omega) (by omega)

/-- The new separator goes to the left of the cut. -/
theorem innerCut_left (hi : inner.isLeaf = false) (hm : Slots.Monotone inner.keys inner.size)
    (hfull : inner.size = c.maxKeys) (hb : base.isLeaf = false) {m : Nat}
    (hmdef : m = c.maxKeys / 2) (h1 : key < inner.keys (m - 1)) {left : Node}
    (hleft : left = { inner with size := m - 1 }) :
    OrderedMap.insertNew key (some separator) inner.seps =
      (left.insertSeparator (left.index key) separator key).seps ++ (inner.keys (m - 1),
        (inner.copied base m (c.maxKeys - m) (inner.separators m)).first) ::
        (inner.copied base m (c.maxKeys - m) (inner.separators m)).seps := by
  have h2 := c.two_le_maxKeys
  subst hleft
  have hcut := seps_eq_append hi (show m - 1 < inner.size by omega)
  rw [show m - 1 + 1 = m by omega] at hcut
  have hgt : ∀ e ∈ (inner.keys (m - 1), inner.separators m) :: inner.seps.drop m,
      key < e.1 := by
    intro e he
    rcases List.mem_cons.mp he with rfl | he
    · exact h1
    · exact lt_of_lt_of_le h1 (le_trans (hm (m - 1) m (by omega) (by omega))
        (le_drop_seps hi hm he))
  rw [first_copied hi hb, seps_insertSeparator (by exact hi) (monotone_truncate hm (by omega)),
    seps_copied hi hb (show m + (c.maxKeys - m) = inner.size by omega),
    seps_truncate hi (m := m - 1) (by omega), ← OrderedMap.insertNew_append_left hgt, ← hcut]

/-- The new separator becomes the first one of the new node. -/
theorem innerCut_middle (hi : inner.isLeaf = false) (hm : Slots.Monotone inner.keys inner.size)
    (hfull : inner.size = c.maxKeys) (hb : base.isLeaf = false) {m : Nat}
    (hmdef : m = c.maxKeys / 2) (h1 : inner.keys (m - 1) < key) (h2 : key < inner.keys m) :
    OrderedMap.insertNew key (some separator) inner.seps =
      ({ inner with size := m } : Node).seps ++
        (key, (inner.copied base m (c.maxKeys - m) (some separator)).first) ::
        (inner.copied base m (c.maxKeys - m) (some separator)).seps := by
  have hcap := c.two_le_maxKeys
  have hlt : ∀ e ∈ inner.seps.take m, e.1 < key := by
    intro e he
    rw [show m = m - 1 + 1 by omega] at he
    exact lt_of_le_of_lt (take_seps_le hi hm (by omega) he) h1
  have hge : ∀ e ∈ inner.seps.drop m, key ≤ e.1 :=
    fun e he => (lt_of_lt_of_le h2 (le_drop_seps hi hm he)).le
  rw [first_copied hi hb, seps_copied hi hb (show m + (c.maxKeys - m) = inner.size by omega),
    seps_truncate hi (m := m) (by omega), ← OrderedMap.insertNew_eq_of_split hlt hge,
    List.take_append_drop]

/-- The new separator goes to the right of the cut. -/
theorem innerCut_right (hi : inner.isLeaf = false) (hm : Slots.Monotone inner.keys inner.size)
    (hfull : inner.size = c.maxKeys) (hb : base.isLeaf = false) {m : Nat}
    (hmdef : m = c.maxKeys / 2) (h1 : inner.keys m < key) {right : Node}
    (hright : right = inner.copied base (m + 1) (c.maxKeys - m - 1) (inner.separators (m + 1))) :
    OrderedMap.insertNew key (some separator) inner.seps =
      ({ inner with size := m } : Node).seps ++
        (inner.keys m, (right.insertSeparator (right.index key) separator key).first) ::
        (right.insertSeparator (right.index key) separator key).seps := by
  have hcap := c.two_le_maxKeys
  have hcount : m + 1 + (c.maxKeys - m - 1) = inner.size := by omega
  have hleaf : right.isLeaf = false := by rw [hright, copied_isLeaf, hb]
  have hfirst : right.first = inner.separators (m + 1) := by rw [hright, first_copied hi hb]
  have hseps : right.seps = inner.seps.drop (m + 1) := by rw [hright, seps_copied hi hb hcount]
  have hmono : Slots.Monotone right.keys right.size := by
    rw [hright]
    exact monotone_copied hi hm hcount _
  have hlt : ∀ e ∈ inner.seps.take (m + 1), e.1 < key :=
    fun e he => lt_of_le_of_lt (take_seps_le hi hm (by omega) he) h1
  have htake : inner.seps.take (m + 1) =
      inner.seps.take m ++ [(inner.keys m, inner.separators (m + 1))] := by
    have hget : inner.seps[m]? = some (inner.keys m, inner.separators (m + 1)) := by
      rw [seps_of_inner hi, Slots.getElem?_pairs, if_pos (by omega)]
    rw [List.take_add_one, hget]
    rfl
  rw [first_insertSeparator, hfirst, seps_insertSeparator hleaf hmono, hseps,
    seps_truncate hi (m := m) (by omega)]
  conv_lhs => rw [← List.take_append_drop (m + 1) inner.seps]
  rw [OrderedMap.insertNew_append_right hlt, htake]
  simp

end InnerSplit

theorem splitInner_spec {c : Capacity} {inner new : Node} {key : Nat} {separator : Nat}
    (hi : inner.isLeaf = false) (hw : inner.WellFormed c) (hfull : inner.size = c.maxKeys)
    (hnew : new.isLeaf = false) (hkey : key ∉ inner.liveKeys) :
    InnerCut c inner separator (OrderedMap.insertNew key (some separator) inner.seps)
      (inner.splitInner c new key separator) := by
  refine ⟨splitInner_shape hi hfull hnew, ?_⟩
  have h2 := c.two_le_maxKeys
  have hm := hw.monotone
  have hne : ∀ i < inner.size, inner.keys i ≠ key :=
    fun i his he => hkey (List.mem_map.mpr ⟨i, List.mem_range.mpr his, he⟩)
  have hbase : ({ new with highKey := inner.highKey } : Node).isLeaf = false := hnew
  rw [splitInner_eq]
  dsimp only
  split
  next h1 => exact innerCut_left hi hm hfull hbase rfl h1 rfl
  next h1 =>
    split
    next h3 =>
      have hlt := lt_of_le_of_ne (not_lt.mp h1) (hne _ (by omega))
      exact innerCut_middle hi hm hfull hbase rfl hlt h3
    next h3 =>
      have hlt := lt_of_le_of_ne (not_lt.mp h3) (hne _ (by omega))
      exact innerCut_right hi hm hfull hbase rfl hlt rfl

/-! ## The leaf split -/

/-- What `splitLeaf` does whatever the keys are. -/
structure LeafShape (leaf : Node) (r : Node × Node) : Prop where
  left_isLeaf : r.1.isLeaf = true
  new_isLeaf : r.2.isLeaf = true
  new_highKey : r.2.highKey = leaf.highKey
  new_right : r.2.rightSibling = leaf.rightSibling

/-- What `splitLeaf` owes the tree: `l` is the sorted insertion into the old bindings. -/
structure LeafCut (c : Capacity) (leaf : Node) (l : List (Nat × Value)) (r : Node × Node) :
    Prop extends LeafShape leaf r where
  left_size : c.maxItems / 2 ≤ r.1.size ∧ r.1.size ≤ c.maxItems
  new_size : c.maxItems / 2 ≤ r.2.size ∧ r.2.size ≤ c.maxItems
  cut : l = r.1.entries ++ r.2.entries

/-- A new leaf that got the upper bindings and the links of the old one. -/
def copiedLeaf (n new : Node) (fromIndex count : Nat) : Node :=
  { n.copy new fromIndex count with
    highKey := n.highKey, rightSibling := n.rightSibling, size := count }

theorem copiedLeaf_isLeaf (n new : Node) (j count : Nat) :
    (n.copiedLeaf new j count).isLeaf = new.isLeaf := by
  simp only [copiedLeaf, copy]
  split <;> rfl

theorem copiedLeaf_keys {n : Node} (hn : n.isLeaf = true) (new : Node) (j count : Nat) :
    (n.copiedLeaf new j count).keys = Slots.memcpy new.keys 0 n.keys j count := by
  simp [copiedLeaf, copy, hn]

theorem entries_copiedLeaf {n new : Node} (hn : n.isLeaf = true) (hnew : new.isLeaf = true)
    {j count : Nat} (h : j + count = n.size) :
    (n.copiedLeaf new j count).entries = n.entries.drop j := by
  have hv : (n.copiedLeaf new j count).values = Slots.memcpy new.values 0 n.values j count := by
    simp [copiedLeaf, copy, hn]
  rw [entries_of_leaf ((copiedLeaf_isLeaf n new j count).trans hnew), entries_of_leaf hn,
    Slots.drop_pairs, copiedLeaf_keys hn, hv, show n.size - j = count from by omega]
  refine Slots.pairs_congr (fun i hi => ?_) (fun i hi => ?_)
  · have hi' : i < count := hi
    simp [Slots.memcpy, hi']
  · have hi' : i < count := hi
    simp [Slots.memcpy, hi']

theorem monotone_copiedLeaf {n new : Node} (hn : n.isLeaf = true)
    (hm : Slots.Monotone n.keys n.size) {j count : Nat} (h : j + count = n.size) :
    Slots.Monotone (n.copiedLeaf new j count).keys (n.copiedLeaf new j count).size := by
  intro a b hab hb
  have hb' : b < count := hb
  rw [copiedLeaf_keys hn, Slots.memcpy, Slots.memcpy, if_pos (by omega), if_pos (by omega)]
  exact hm _ _ (by omega) (by omega)

/-- The two branches of `split_leaf_node`, with the copied leaf named. -/
theorem splitLeaf_eq (c : Capacity) (leaf new : Node) (key : Nat) (value : Value) :
    leaf.splitLeaf c new key value =
      let m := c.maxItems / 2
      let left : Node := { leaf with size := m }
      let right := leaf.copiedLeaf new m (c.maxItems - m)
      if key < right.keys 0 then (left.insertValue (left.index key) value key, right)
      else (left, right.insertValue (right.index key) value key) :=
  rfl

theorem splitLeaf_shape {c : Capacity} {leaf new : Node} (key : Nat) (value : Value)
    (hl : leaf.isLeaf = true) (hnew : new.isLeaf = true) :
    LeafShape leaf (leaf.splitLeaf c new key value) := by
  have hleaf : ∀ j count, (leaf.copiedLeaf new j count).isLeaf = true :=
    fun j count => (copiedLeaf_isLeaf leaf new j count).trans hnew
  rw [splitLeaf_eq]
  dsimp only
  split
  · exact ⟨hl, hleaf _ _, rfl, rfl⟩
  · exact ⟨hl, hleaf _ _, rfl, rfl⟩

theorem splitLeaf_spec {c : Capacity} {leaf new : Node} {key : Nat} {value : Value}
    (hl : leaf.isLeaf = true) (hw : leaf.WellFormed c) (hfull : leaf.size = c.maxItems)
    (hnew : new.isLeaf = true) (hkey : key ∉ leaf.liveKeys) :
    LeafCut c leaf (OrderedMap.insertNew key value leaf.entries)
      (leaf.splitLeaf c new key value) := by
  have h2 := c.two_le_maxItems
  have hm := hw.monotone
  obtain ⟨m, hmdef⟩ : ∃ m, m = c.maxItems / 2 := ⟨_, rfl⟩
  have hcount : m + (c.maxItems - m) = leaf.size := by omega
  have hright := entries_copiedLeaf hl hnew hcount
  have hleaf := (copiedLeaf_isLeaf leaf new m (c.maxItems - m)).trans hnew
  have hkey0 : (leaf.copiedLeaf new m (c.maxItems - m)).keys 0 = leaf.keys m := by
    rw [copiedLeaf_keys hl, Slots.memcpy, if_pos (by omega)]
    simp
  have hle : ∀ e ∈ leaf.entries.take m, e.1 ≤ leaf.keys m := by
    intro e he
    rw [entries_of_leaf hl, Slots.take_pairs _ _ (by omega)] at he
    obtain ⟨i, hi, rfl⟩ := Slots.mem_pairs.mp he
    exact hm i m (by omega) (by omega)
  have hge : ∀ e ∈ leaf.entries.drop m, leaf.keys m ≤ e.1 := by
    intro e he
    rw [entries_of_leaf hl, Slots.drop_pairs] at he
    obtain ⟨i, hi, rfl⟩ := Slots.mem_pairs.mp he
    exact hm m (m + i) (by omega) (by omega)
  have hshape := splitLeaf_shape (c := c) key value hl hnew
  rw [splitLeaf_eq, ← hmdef] at hshape ⊢
  dsimp only at hshape ⊢
  rw [hkey0] at hshape ⊢
  split
  next h1 =>
    rw [if_pos h1] at hshape
    have hins := entries_insertValue (n := { leaf with size := m }) hl
      (monotone_truncate hm (by omega)) key value
    refine ⟨hshape, ⟨?_, ?_⟩, ⟨?_, ?_⟩, ?_⟩
    · show c.maxItems / 2 ≤ m + 1
      omega
    · show m + 1 ≤ c.maxItems
      omega
    · show c.maxItems / 2 ≤ c.maxItems - m
      omega
    · exact Nat.sub_le _ _
    · rw [hins, hright, entries_truncate hl (m := m) (by omega), ← OrderedMap.insertNew_append_left
        (fun e he => lt_of_lt_of_le h1 (hge e he)), List.take_append_drop]
  next h1 =>
    rw [if_neg h1] at hshape
    have hlt : leaf.keys m < key := by
      refine lt_of_le_of_ne (not_lt.mp h1) fun he => hkey ?_
      exact List.mem_map.mpr ⟨m, List.mem_range.mpr (by omega), he⟩
    have hins := entries_insertValue hleaf (monotone_copiedLeaf hl hm hcount) key value
    refine ⟨hshape, ⟨?_, ?_⟩, ⟨?_, ?_⟩, ?_⟩
    · exact hmdef.ge
    · show m ≤ c.maxItems
      omega
    · show c.maxItems / 2 ≤ c.maxItems - m + 1
      omega
    · show c.maxItems - m + 1 ≤ c.maxItems
      omega
    · rw [hins, hright, entries_truncate hl (m := m) (by omega), ← OrderedMap.insertNew_append_right
        (fun e he => lt_of_le_of_lt (hle e he) hlt), List.take_append_drop]

end Node

end BLinkTree

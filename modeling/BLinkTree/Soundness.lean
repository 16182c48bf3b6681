import BLinkTree.ConsistencyChecker
import BLinkTree.Latched.NodePath

/-! # What a silent checker promises

A tree of any origin about which `Tree::check` prints nothing. The checker compares the
last key of a child with the separator key behind it and, through the parent pointer, the
first key of a last child with the separator key before it. It compares no other child
with the key before it, no high key of an inner node with the keys below the node, and
nothing with the leaves at the edges of a larger subtree.
-/

namespace BLinkTree

/-- `ThreadTree::locate_leaf` without a path. -/
def Tree.locateLeaf (t : Tree) (key : Nat) : Nat → Nat → Option Nat
  | 0, _ => none
  | fuel + 1, currentNode =>
      if (t.node currentNode).isLeaf then Latched.follow t key (fuel + 1) currentNode
      else do
        let currentNode ← Latched.follow t key (fuel + 1) currentNode
        let child ← (t.node currentNode).child key
        t.locateLeaf key fuel child

/-- The path plays no part in where the search ends. -/
theorem Tree.locateLeaf_of_path {t : Tree} {k fuel n m : Nat} {path path' : Latched.NodePath}
    (h : Latched.locateLeaf t k fuel path n = some (m, path')) :
    t.locateLeaf k fuel n = some m := by
  induction fuel generalizing n path with
  | zero => simp [Latched.locateLeaf] at h
  | succ fuel ih =>
      rw [Latched.locateLeaf] at h
      rw [Tree.locateLeaf]
      split
      next hl =>
        rw [if_pos hl] at h
        rcases Option.map_eq_some_iff.mp h with ⟨leaf, hleaf, heq⟩
        rw [hleaf, (Prod.mk.inj heq).1]
      next hl =>
        rw [if_neg hl] at h
        simp only [Option.bind_eq_bind, Option.bind_eq_some_iff] at h ⊢
        rcases h with ⟨last, hlast, path₁, _, child, hchild, h⟩
        exact ⟨last, hlast, child, hchild, ih h⟩
/-- The last separator of an inner node. -/
def Node.last (n : Node) : Option Nat := if n.isLeaf then none else n.separators n.size

/-- A tree of nodes that are not empty: its pointers lead to its nodes, every node but the
root is a separator of one inner node, and the right siblings link the levels. -/
structure Wired (c : Capacity) (t : Tree) : Prop where
  root_lt : t.root < t.count
  size_pos : ∀ n < t.count, 1 ≤ (t.node n).size
  size_le : ∀ n < t.count, (t.node n).size ≤ (t.node n).capacity c
  separator : ∀ n < t.count, ∀ y, some y ∈ (t.node n).children → y < t.count
  parent : ∀ n < t.count, ∀ p, t.parent n = some p → p < t.count
  root_free : ∀ p < t.count, some t.root ∉ (t.node p).children
  holder : ∀ n < t.count, n ≠ t.root → ∃ p, (p < t.count ∧ some n ∈ (t.node p).children) ∧
    ∀ q, q < t.count ∧ some n ∈ (t.node q).children → q = p
  reached : ∀ n < t.count, t.Under t.root n
  linked : ∀ d, Linked t (t.row d)

/-- Every key of a leaf is between the separator keys around it in every inner node above. -/
def Tree.KeysInBounds (t : Tree) : Prop :=
  ∀ n < t.count, (t.node n).isLeaf = false → ∀ j ≤ (t.node n).size, ∀ y,
    (t.node n).separators j = some y → ∀ m, t.Under y m → (t.node m).isLeaf = true →
      ∀ k ∈ (t.node m).liveKeys,
        (1 ≤ j → (t.node n).keys (j - 1) ≤ k) ∧ (j < (t.node n).size → k < (t.node n).keys j)

/-- The search for a key of a leaf ends in a leaf that has the key. -/
def Tree.KeysFound (t : Tree) : Prop :=
  ∀ m < t.count, (t.node m).isLeaf = true → ∀ k ∈ (t.node m).liveKeys, ∃ fuel leaf,
    t.locateLeaf k fuel t.root = some leaf ∧ (t.node leaf).isLeaf = true ∧
      k ∈ (t.node leaf).liveKeys

/-- Leaf `m` is the leftmost one below node `n`. -/
def Tree.LeftEdge (t : Tree) (n m : Nat) : Prop :=
  Relation.ReflTransGen (fun n m => (t.node n).first = some m) n m ∧ (t.node m).isLeaf = true

/-- Leaf `m` is the rightmost one below node `n`. -/
def Tree.RightEdge (t : Tree) (n m : Nat) : Prop :=
  Relation.ReflTransGen (fun n m => (t.node n).last = some m) n m ∧ (t.node m).isLeaf = true

/-- What the checker leaves open. -/
structure Tree.EdgesInBounds (t : Tree) : Prop where
  /-- The rightmost leaf below an inner child ends before the separator key behind it. -/
  upper : ∀ n < t.count, (t.node n).isLeaf = false → ∀ j < (t.node n).size, ∀ y,
    (t.node n).separators j = some y → (t.node y).isLeaf = false →
      ∀ m, t.RightEdge y m → (t.node m).lastKey < (t.node n).keys j
  /-- The leftmost leaf below a child starts no earlier than the separator key before it. -/
  lower : ∀ n < t.count, (t.node n).isLeaf = false → ∀ j, 1 ≤ j → j ≤ (t.node n).size → ∀ y,
    (t.node n).separators j = some y →
      ¬ (j = (t.node n).size ∧ (t.node y).isLeaf = true ∧ t.parent y = some n) →
        ∀ m, t.LeftEdge y m → (t.node n).keys (j - 1) ≤ (t.node m).keys 0
  /-- The rightmost leaf below an inner node ends before the node's high key. -/
  highKey : ∀ n < t.count, (t.node n).isLeaf = false → ∀ m, t.RightEdge n m →
    (t.node m).lastKey < (t.node n).highKey

/-- A leaf below node `n` has key `k`. -/
def Tree.Holds (t : Tree) (n k : Nat) : Prop :=
  ∃ m, t.Under n m ∧ (t.node m).isLeaf = true ∧ k ∈ (t.node m).liveKeys

variable {c : Capacity} {t : Tree} {n m y k j : Nat}

/-! ## Linked levels -/

theorem Linked.eq_of_head {l l' : List Nat} (h : Linked t (n :: l)) (h' : Linked t (n :: l')) :
    l = l' := by
  have hhead : l.head? = l'.head? := h.1.symm.trans h'.1
  induction l generalizing n l' with
  | nil =>
      cases l' with
      | nil => rfl
      | cons _ _ => simp at hhead
  | cons a l ih =>
      cases l' with
      | nil => simp at hhead
      | cons b l' =>
          obtain rfl : a = b := by simpa using hhead
          rw [ih h.2 h'.2 (h.2.1.symm.trans h'.2.1)]

/-- A level has no node twice, since a node has one sibling only. -/
theorem Linked.nodup {l : List Nat} (h : Linked t l) : l.Nodup := by
  induction l with
  | nil => exact List.nodup_nil
  | cons n l ih =>
      refine List.nodup_cons.mpr ⟨fun hmem => ?_, ih h.2⟩
      rcases List.append_of_mem hmem with ⟨pre, post, rfl⟩
      have heq := h.eq_of_head h.2.suffix
      have hlen := congrArg List.length heq
      rw [List.length_append, List.length_cons] at hlen
      omega

/-! ## The checks that are left -/

/-- What a silent checker says about one node. -/
structure Passed (t : Tree) (n : Nat) : Prop where
  last_lt : (t.node n).lastKey < (t.node n).highKey
  keys_lt : ∀ i j, i < j → j < (t.node n).size → (t.node n).keys i < (t.node n).keys j
  separator : (t.node n).isLeaf = false → ∀ j ≤ (t.node n).size, ∃ y,
    (t.node n).separators j = some y
  children : (t.node n).isLeaf = false → ∀ j < (t.node n).size, ∀ y,
    (t.node n).separators j = some y → (t.node y).lastKey < (t.node n).keys j
  sibling : ∀ r, (t.node n).rightSibling = some r → (t.node n).isLeaf = (t.node r).isLeaf
  parent : t.checkAndPrintParent n = []

theorem passed_of_silent (h : t.checkNodeAndPrintErrors n = some []) : Passed t n := by
  rcases checkNode_eq_nil.mp h with ⟨h1, h2, h3, h4, h5, h6⟩
  have hstep := Node.isKeyOrderValid_iff.mp h2
  refine ⟨of_decide_eq_true h1, ?_, Node.isNoNullSeparator_iff.mp h3, ?_,
    (isLevelValid_iff.mp h5).1, h6⟩
  · intro i j hij hj
    induction j with
    | zero => omega
    | succ j ih =>
        have hlt := hstep j hj
        rcases Nat.lt_succ_iff_lt_or_eq.mp hij with hij' | rfl
        · exact lt_trans (ih hij' (by omega)) hlt
        · exact hlt
  · intro hl j hj y hy
    rcases isChildrenOrderValid_iff.mp h4 hl j hj with ⟨y', hy', hlt⟩
    obtain rfl : y = y' := Option.some.inj (hy.symm.trans hy')
    exact hlt

theorem Passed.monotone (h : Passed t n) : Slots.Monotone (t.node n).keys (t.node n).size := by
  intro i j hij hj
  rcases Nat.eq_or_lt_of_le hij with rfl | hij
  · exact le_rfl
  · exact (h.keys_lt i j hij hj).le

/-! ## Every level is visited -/

theorem Linked.same_kind {l : List Nat} (h : Linked t (n :: l))
    (hp : ∀ m ∈ n :: l, Passed t m) : ∀ m ∈ n :: l, (t.node m).isLeaf = (t.node n).isLeaf := by
  induction l generalizing n with
  | nil =>
      intro m hm
      rw [List.mem_singleton.mp hm]
  | cons r l ih =>
      have hkind := (hp n (List.mem_cons_self ..)).sibling r h.1
      intro m hm
      rcases List.mem_cons.mp hm with rfl | hm
      · rfl
      · rw [hkind]
        exact ih h.2 (fun q hq => hp q (List.mem_cons_of_mem _ hq)) m hm

theorem row_eq_nil_of_leaves {d : Nat} (h : ∀ m ∈ t.row d, (t.node m).isLeaf = true) {e : Nat}
    (he : d < e) : t.row e = [] := by
  obtain ⟨k, rfl⟩ : ∃ k, e = d + 1 + k := ⟨e - (d + 1), by omega⟩
  induction k with
  | zero =>
      refine List.flatMap_eq_nil_iff.mpr fun m hm => ?_
      simp [Node.children, h m hm, List.reduceOption]
  | succ k ih =>
      show (t.row (d + 1 + k)).flatMap _ = []
      rw [ih (by omega)]
      rfl

/-- Whatever the iterator visits from the start of a level on passes the checks, so every
level is of one kind and the next one is visited too. -/
theorem silent_rows {nodes l : List Nat} {fuel d : Nat} (hlink : ∀ d, Linked t (t.row d))
    (hrow : t.row d = n :: l) (hrun : t.visited fuel ⟨some n, some n⟩ = some nodes)
    (hpass : ∀ m ∈ nodes, Passed t m) :
    ∃ height, d < height ∧ ∀ e, d ≤ e → ∀ m ∈ t.row e,
      Passed t m ∧ e < height ∧ ((t.node m).isLeaf = true ↔ e + 1 = height) := by
  induction hlen : nodes.length using Nat.strong_induction_on generalizing nodes l fuel d n with
  | _ len ih =>
      have hlevel := hlink d
      rw [hrow] at hlevel
      have hmore := visited_mono (Nat.le_add_right fuel (n :: l).length) hrun
      rw [visited_level hlevel, Option.map_eq_some_iff] at hmore
      rcases hmore with ⟨rest, hrest, rfl⟩
      have hhere : ∀ m ∈ n :: l, Passed t m := fun m hm => hpass m (List.mem_append_left _ hm)
      have hkind := hlevel.same_kind hhere
      have hlast := hkind _ (List.getLast_mem (List.cons_ne_nil n l))
      cases hl : (t.node n).isLeaf with
      | true =>
          have hleaf : ∀ m ∈ t.row d, (t.node m).isLeaf = true := by
            intro m hm
            rw [hrow] at hm
            exact (hkind m hm).trans hl
          refine ⟨d + 1, Nat.lt_succ_self d, fun e he m hm => ?_⟩
          rcases Nat.eq_or_lt_of_le he with rfl | hlt
          · have hm' := hm
            rw [hrow] at hm'
            exact ⟨hhere m hm', Nat.lt_succ_self d, by simp [hleaf m hm]⟩
          · rw [row_eq_nil_of_leaves hleaf hlt] at hm
            exact absurd hm List.not_mem_nil
      | false =>
          rcases (hhere n (List.mem_cons_self ..)).separator hl 0 (Nat.zero_le _) with ⟨y, hy⟩
          rcases row_succ_eq_cons hrow hl hy with ⟨l', hnext⟩
          rw [Tree.nextLevel, if_neg (by simp [hlast, hl]), hy] at hrest
          have hshort : rest.length < len := by
            rw [← hlen, List.length_append, List.length_cons]
            omega
          rcases ih rest.length hshort hnext hrest
            (fun m hm => hpass m (List.mem_append_right _ hm)) rfl with ⟨height, hd, hall⟩
          refine ⟨height, by omega, fun e he m hm => ?_⟩
          rcases Nat.eq_or_lt_of_le he with rfl | hlt
          · rw [hrow] at hm
            have hinner : (t.node m).isLeaf = false := (hkind m hm).trans hl
            refine ⟨hhere m hm, by omega, ?_⟩
            rw [hinner]
            simp only [Bool.false_eq_true, false_iff]
            omega
          · exact hall e hlt m hm

/-- What is known of a tree about which nothing is printed: every node passes the checks, and
the leaves are on one level. -/
structure Silent (t : Tree) (height : Nat) : Prop where
  passed : ∀ n < t.count, Passed t n
  row_lt : ∀ d, ∀ n ∈ t.row d, n < t.count
  mem_row : ∀ n < t.count, ∃ d, n ∈ t.row d
  level : ∀ d, ∀ n ∈ t.row d, d < height ∧ ((t.node n).isLeaf = true ↔ d + 1 = height)

theorem Wired.silent (hw : Wired c t) {fuel : Nat} (hcheck : t.check fuel = some []) :
    ∃ height, Silent t height := by
  rcases Option.bind_eq_some_iff.mp hcheck with ⟨nodes, hrun, hprint⟩
  have hpass : ∀ m ∈ nodes, Passed t m := fun m hm =>
    passed_of_silent (checkNodes_eq_nil.mp hprint m hm)
  rcases silent_rows hw.linked (d := 0) rfl hrun hpass with ⟨height, _, hall⟩
  refine ⟨height, ?_, ?_, fun n hn => under_root_iff.mp (hw.reached n hn), ?_⟩
  · intro n hn
    rcases under_root_iff.mp (hw.reached n hn) with ⟨d, hd⟩
    exact (hall d (Nat.zero_le d) n hd).1
  · intro d n hn
    induction d generalizing n with
    | zero =>
        rw [List.mem_singleton.mp hn]
        exact hw.root_lt
    | succ d ih =>
        rcases List.mem_flatMap.mp hn with ⟨p, hp, hchild⟩
        exact hw.separator p (ih p hp) n (List.reduceOption_mem_iff.mp hchild)
  · intro d n hn
    exact (hall d (Nat.zero_le d) n hn).2

/-! ## Nodes and their children -/

theorem separator_mem (hl : (t.node n).isLeaf = false) (hj : j ≤ (t.node n).size)
    (hy : (t.node n).separators j = some y) : some y ∈ (t.node n).children :=
  Node.mem_children.mpr ⟨hl, j, hj, hy⟩

theorem Tree.Holds.of_child (h : some y ∈ (t.node n).children) (hk : t.Holds y k) :
    t.Holds n k := by
  rcases hk with ⟨m, hm, hl, hk⟩
  exact ⟨m, .head h hm, hl, hk⟩

/-- An inner node has the keys that its children have. -/
theorem Tree.Holds.exists_child (hl : (t.node n).isLeaf = false) (hk : t.Holds n k) :
    ∃ j ≤ (t.node n).size, ∃ y, (t.node n).separators j = some y ∧ t.Holds y k := by
  rcases hk with ⟨m, hm, hml, hk⟩
  rcases hm.cases_head with rfl | ⟨y, hy, hm⟩
  · rw [hl] at hml
    cases hml
  · rcases Node.mem_children.mp hy with ⟨_, j, hj, hs⟩
    exact ⟨j, hj, y, hs, m, hm, hml, hk⟩

theorem under_of_leaf (hl : (t.node n).isLeaf = true) (hm : t.Under n m) : m = n := by
  rcases hm.cases_head with rfl | ⟨y, hy, _⟩
  · rfl
  · rw [(Node.mem_children.mp hy).1] at hl
    cases hl

theorem holds_of_leaf (hl : (t.node n).isLeaf = true) :
    t.Holds n k ↔ k ∈ (t.node n).liveKeys := by
  constructor
  · rintro ⟨m, hm, _, hk⟩
    rwa [under_of_leaf hl hm] at hk
  · exact fun hk => ⟨n, .refl, hl, hk⟩

theorem Tree.LeftEdge.under (h : t.LeftEdge n m) : t.Under n m := by
  refine Relation.ReflTransGen.mono (fun a b hab => ?_) _ _ h.1
  unfold Node.first at hab
  split at hab
  next => cases hab
  next hl => exact separator_mem (Bool.eq_false_of_not_eq_true hl) (Nat.zero_le _) hab

theorem Tree.RightEdge.under (h : t.RightEdge n m) : t.Under n m := by
  refine Relation.ReflTransGen.mono (fun a b hab => ?_) _ _ h.1
  unfold Node.last at hab
  split at hab
  next => cases hab
  next hl => exact separator_mem (Bool.eq_false_of_not_eq_true hl) le_rfl hab

theorem Tree.LeftEdge.cons (hl : (t.node n).isLeaf = false)
    (hy : (t.node n).separators 0 = some y) (h : t.LeftEdge y m) : t.LeftEdge n m := by
  refine ⟨.head ?_ h.1, h.2⟩
  rw [Node.first, hl]
  exact hy

theorem Tree.RightEdge.cons (hl : (t.node n).isLeaf = false)
    (hy : (t.node n).separators (t.node n).size = some y) (h : t.RightEdge y m) :
    t.RightEdge n m := by
  refine ⟨.head ?_ h.1, h.2⟩
  rw [Node.last, hl]
  exact hy

section Silent

variable {height : Nat} (hw : Wired c t) (hs : Silent t height)

include hw in
theorem Wired.size_lt (hn : n < t.count) : (t.node n).size < 2 ^ 14 :=
  lt_of_le_of_lt (hw.size_le n hn) ((t.node n).capacity_lt c)

include hw in
theorem Wired.lastKey_eq (hn : n < t.count) :
    (t.node n).lastKey = (t.node n).keys ((t.node n).size - 1) := by
  have hpos := hw.size_pos n hn
  have hlt := hw.size_lt hn
  rw [Node.lastKey, Node.before_eq hpos (by omega)]

include hw hs in
/-- The keys of a leaf are between its first key and its last one. -/
theorem Silent.leaf_key (hn : n < t.count) (hk : k ∈ (t.node n).liveKeys) :
    (t.node n).keys 0 ≤ k ∧ k ≤ (t.node n).lastKey := by
  have hm := (hs.passed n hn).monotone
  rcases List.mem_map.mp hk with ⟨i, hi, rfl⟩
  have hi := List.mem_range.mp hi
  rw [hw.lastKey_eq hn]
  exact ⟨hm 0 i (Nat.zero_le i) hi, hm i _ (by omega) (by omega)⟩

include hw in
theorem Wired.firstKey_mem (hn : n < t.count) : (t.node n).keys 0 ∈ (t.node n).liveKeys :=
  Node.key_mem (hw.size_pos n hn)

include hw in
theorem Wired.lastKey_mem (hn : n < t.count) : (t.node n).lastKey ∈ (t.node n).liveKeys := by
  have hpos := hw.size_pos n hn
  rw [hw.lastKey_eq hn]
  exact Node.key_mem (by omega)

include hw in
theorem Wired.under_lt (hn : n < t.count) (hm : t.Under n m) : m < t.count := by
  induction hm with
  | refl => exact hn
  | tail _ hchild ih => exact hw.separator _ ih _ hchild

include hw in
theorem Wired.child_lt (hn : n < t.count) (hl : (t.node n).isLeaf = false)
    (hj : j ≤ (t.node n).size) (hy : (t.node n).separators j = some y) : y < t.count :=
  hw.separator n hn y (separator_mem hl hj hy)

include hw hs in
/-- Induction from the leaves to the root. -/
theorem Silent.induct {P : Nat → Prop} (leaf : ∀ n < t.count, (t.node n).isLeaf = true → P n)
    (inner : ∀ n < t.count, (t.node n).isLeaf = false →
      (∀ j ≤ (t.node n).size, ∀ y, (t.node n).separators j = some y → P y) → P n)
    (hn : n < t.count) : P n := by
  rcases hs.mem_row n hn with ⟨d, hd⟩
  induction hgap : height - d generalizing n d with
  | zero =>
      have hlt := (hs.level d n hd).1
      omega
  | succ gap ih =>
      cases hl : (t.node n).isLeaf with
      | true => exact leaf n hn hl
      | false =>
          refine inner n hn hl fun j hj y hy => ?_
          have hnext : y ∈ t.row (d + 1) := List.mem_flatMap.mpr
            ⟨n, hd, List.reduceOption_mem_iff.mpr (separator_mem hl hj hy)⟩
          exact ih (hw.child_lt hn hl hj hy) (d + 1) hnext (by omega)

include hw hs in
/-- A node is at one position of its parent. -/
theorem Silent.position_unique (hn : n < t.count) (hl : (t.node n).isLeaf = false) {i : Nat}
    (hi : i ≤ (t.node n).size) (hj : j ≤ (t.node n).size)
    (hyi : (t.node n).separators i = some y) (hyj : (t.node n).separators j = some y) :
    i = j := by
  rcases hs.mem_row n hn with ⟨d, hd⟩
  have hnodup := (List.nodup_flatMap.mp (hw.linked (d + 1)).nodup).1 n hd
  unfold Node.children at hnodup
  rw [if_neg (by simp [hl])] at hnodup
  have hpair := List.pairwise_map.mp (List.pairwise_filterMap.mp hnodup)
  have hdiffer : ∀ a b, a < b → b ≤ (t.node n).size → (t.node n).separators a = some y →
      (t.node n).separators b ≠ some y := by
    intro a b hab hb hya hyb
    have hab' := List.pairwise_iff_getElem.mp hpair a b (by simp; omega) (by simp; omega) hab
    simp only [List.getElem_range] at hab'
    exact hab' y hya y hyb rfl
  rcases Nat.lt_trichotomy i j with hlt | heq | hlt
  · exact absurd hyj (hdiffer i j hlt hj hyi)
  · exact heq
  · exact absurd hyi (hdiffer j i hlt hi hyj)

/-! ## From the edges to all keys -/

/-- The keys below a node are between those of the leaves at its edges. -/
structure Spanned (t : Tree) (n : Nat) : Prop where
  left : ∃ e, t.LeftEdge n e ∧ ∀ k, t.Holds n k → (t.node e).keys 0 ≤ k
  right : ∃ e, t.RightEdge n e ∧ ∀ k, t.Holds n k → k ≤ (t.node e).lastKey

include hw hs in
/-- The bound behind a child: the checker tests the children that are leaves. -/
theorem Silent.child_upper (he : t.EdgesInBounds) (hn : n < t.count)
    (hl : (t.node n).isLeaf = false) (hj : j < (t.node n).size)
    (hy : (t.node n).separators j = some y) (hspan : Spanned t y) (hk : t.Holds y k) :
    k < (t.node n).keys j := by
  have hyc := hw.child_lt hn hl hj.le hy
  cases hyl : (t.node y).isLeaf with
  | true =>
      have hkey := (hs.leaf_key hw hyc ((holds_of_leaf hyl).mp hk)).2
      exact lt_of_le_of_lt hkey ((hs.passed n hn).children hl j hj y hy)
  | false =>
      rcases hspan.right with ⟨e, hedge, hle⟩
      exact lt_of_le_of_lt (hle k hk) (he.upper n hn hl j hj y hy hyl e hedge)

include hw hs in
/-- The parent check of a last child compares its first key. -/
theorem Silent.firstKey_of_parent (hn : n < t.count) (hl : (t.node n).isLeaf = false)
    (hy : (t.node n).separators (t.node n).size = some y) (hp : t.parent y = some n) :
    (t.node n).keys ((t.node n).size - 1) ≤ (t.node y).keys 0 := by
  have hyc := hw.child_lt hn hl le_rfl hy
  have hpos := hw.size_pos n hn
  have hlt := hw.size_lt hn
  rcases (checkAndPrintParent_eq_nil hp).mp (hs.passed y hyc).parent with ⟨_, hcheck⟩
  have hfound : ∃ j, 0 ≤ j ∧ j < 0 + ((t.node n).size + 1) ∧
      (t.node n).separators j = some y :=
    ⟨(t.node n).size, Nat.zero_le _, by omega, hy⟩
  rcases Node.separatorIndex_spec hfound with ⟨hindex, hat⟩
  have hlast : (t.node n).separatorIndex y ((t.node n).size + 1) 0 = (t.node n).size :=
    hs.position_unique hw hn hl (by omega) le_rfl hat hy
  have hkey := hcheck.2 (by omega)
  rwa [hlast, Node.before_eq hpos (by omega)] at hkey

include hw hs in
/-- The bound before a child. -/
theorem Silent.child_lower (he : t.EdgesInBounds) (hn : n < t.count)
    (hl : (t.node n).isLeaf = false) (h1 : 1 ≤ j) (hj : j ≤ (t.node n).size)
    (hy : (t.node n).separators j = some y) (hspan : Spanned t y) (hk : t.Holds y k) :
    (t.node n).keys (j - 1) ≤ k := by
  by_cases hlast : j = (t.node n).size ∧ (t.node y).isLeaf = true ∧ t.parent y = some n
  · rcases hlast with ⟨rfl, hyl, hp⟩
    have hkey := hs.leaf_key hw (hw.child_lt hn hl hj hy) ((holds_of_leaf hyl).mp hk)
    exact le_trans (hs.firstKey_of_parent hw hn hl hy hp) hkey.1
  · rcases hspan.left with ⟨e, hedge, hle⟩
    exact le_trans (he.lower n hn hl j h1 hj y hy hlast e hedge) (hle k hk)

include hw hs in
theorem Silent.spanned (he : t.EdgesInBounds) (hn : n < t.count) : Spanned t n := by
  refine hs.induct hw (P := Spanned t) ?_ ?_ hn
  · intro n hn hl
    refine ⟨⟨n, ⟨.refl, hl⟩, fun k hk => ?_⟩, ⟨n, ⟨.refl, hl⟩, fun k hk => ?_⟩⟩
    · exact (hs.leaf_key hw hn ((holds_of_leaf hl).mp hk)).1
    · exact (hs.leaf_key hw hn ((holds_of_leaf hl).mp hk)).2
  · intro n hn hl ih
    have hpos := hw.size_pos n hn
    have hm := (hs.passed n hn).monotone
    have hsep := (hs.passed n hn).separator hl
    rcases hsep 0 (Nat.zero_le _) with ⟨y₀, hy₀⟩
    rcases hsep _ le_rfl with ⟨y₁, hy₁⟩
    rcases (ih 0 (Nat.zero_le _) y₀ hy₀).left with ⟨e₀, hedge₀, hle₀⟩
    rcases (ih _ le_rfl y₁ hy₁).right with ⟨e₁, hedge₁, hle₁⟩
    have hin₀ : t.Holds y₀ ((t.node e₀).keys 0) := by
      have hc := hw.under_lt (hw.child_lt hn hl (Nat.zero_le _) hy₀) hedge₀.under
      exact ⟨e₀, hedge₀.under, hedge₀.2, hw.firstKey_mem hc⟩
    have hin₁ : t.Holds y₁ (t.node e₁).lastKey := by
      have hc := hw.under_lt (hw.child_lt hn hl le_rfl hy₁) hedge₁.under
      exact ⟨e₁, hedge₁.under, hedge₁.2, hw.lastKey_mem hc⟩
    -- the edge keys are on the outer sides of the first and of the last separator key
    have hfirst := hs.child_upper hw he hn hl hpos hy₀ (ih 0 (Nat.zero_le _) y₀ hy₀) hin₀
    have hlast := hs.child_lower hw he hn hl hpos le_rfl hy₁ (ih _ le_rfl y₁ hy₁) hin₁
    refine ⟨⟨e₀, hedge₀.cons hl hy₀, fun k hk => ?_⟩, ⟨e₁, hedge₁.cons hl hy₁, fun k hk => ?_⟩⟩
    · rcases hk.exists_child hl with ⟨j, hj, y, hy, hk⟩
      rcases Nat.eq_zero_or_pos j with rfl | hjpos
      · obtain rfl : y = y₀ := Option.some.inj (hy.symm.trans hy₀)
        exact hle₀ k hk
      · have hlow := hs.child_lower hw he hn hl hjpos hj hy (ih j hj y hy) hk
        have hkeys := hm 0 (j - 1) (Nat.zero_le _) (by omega)
        omega
    · rcases hk.exists_child hl with ⟨j, hj, y, hy, hk⟩
      rcases Nat.eq_or_lt_of_le hj with rfl | hjlt
      · obtain rfl : y = y₁ := Option.some.inj (hy.symm.trans hy₁)
        exact hle₁ k hk
      · have hupp := hs.child_upper hw he hn hl hjlt hy (ih j hj y hy) hk
        have hkeys := hm j ((t.node n).size - 1) (by omega) (by omega)
        omega

include hw hs in
theorem Silent.keysInBounds (he : t.EdgesInBounds) : t.KeysInBounds := by
  intro n hn hl j hj y hy m hm hml k hk
  have hspan := hs.spanned hw he (hw.child_lt hn hl hj hy)
  have hk : t.Holds y k := ⟨m, hm, hml, hk⟩
  exact ⟨fun h1 => hs.child_lower hw he hn hl h1 hj hy hspan hk,
    fun h1 => hs.child_upper hw he hn hl h1 hy hspan hk⟩

/-! ## The searches -/

include hw hs in
/-- `child` finds the separator with the key below it. -/
theorem Silent.child_eq (hb : t.KeysInBounds) (hn : n < t.count) (hl : (t.node n).isLeaf = false)
    (hy : some y ∈ (t.node n).children) (hk : t.Holds y k) : (t.node n).child k = some y := by
  rcases Node.mem_children.mp hy with ⟨_, j, hj, hsep⟩
  rcases hk with ⟨m, hm, hml, hk⟩
  rcases hb n hn hl j hj y hsep m hm hml k hk with ⟨hlow, hupp⟩
  rcases Node.childSlot_spec (hs.passed n hn).monotone (hw.size_lt hn).le k with
    ⟨hle, hbefore, hbehind⟩
  have hslot : (t.node n).childSlot k = j := by
    rcases Nat.lt_trichotomy ((t.node n).childSlot k) j with hlt | heq | hlt
    · have h1 := hbehind (j - 1) (by omega) (by omega)
      have h2 := hlow (by omega)
      omega
    · exact heq
    · have h1 := hbefore j hlt
      have h2 := hupp (by omega)
      omega
  rw [Node.child, hslot]
  exact hsep

include hw hs in
/-- The search below a node whose subtree has the key. -/
theorem Silent.locateLeaf_under (hb : t.KeysInBounds)
    (hhigh : ∀ n < t.count, t.Holds n k → k < (t.node n).highKey) (hml : (t.node m).isLeaf = true)
    (hk : k ∈ (t.node m).liveKeys) (hm : t.Under n m) (hn : n < t.count) :
    ∃ fuel, t.locateLeaf k fuel n = some m := by
  induction hm using Relation.ReflTransGen.head_induction_on with
  | refl =>
      refine ⟨1, ?_⟩
      rw [Tree.locateLeaf, if_pos hml]
      exact Latched.follow_of_lt (hhigh m hn ⟨m, .refl, hml, hk⟩) 0
  | head hchild hm ih =>
      rename_i n y
      have hl := (Node.mem_children.mp hchild).1
      have hin : t.Holds y k := ⟨m, hm, hml, hk⟩
      rcases ih (hw.separator n hn y hchild) with ⟨fuel, hrun⟩
      refine ⟨fuel + 1, ?_⟩
      rw [Tree.locateLeaf, if_neg (by simp [hl]),
        Latched.follow_of_lt (hhigh n hn (hin.of_child hchild))]
      simp only [Option.bind_eq_bind, Option.bind_some, hs.child_eq hw hb hn hl hchild hin]
      exact hrun

include hw hs in
theorem Silent.keysFound (he : t.EdgesInBounds) : t.KeysFound := by
  intro m hm hml k hk
  have hhigh : ∀ n < t.count, t.Holds n k → k < (t.node n).highKey := by
    intro n hn hin
    cases hl : (t.node n).isLeaf with
    | true =>
        have hkey := hs.leaf_key hw hn ((holds_of_leaf hl).mp hin)
        exact lt_of_le_of_lt hkey.2 (hs.passed n hn).last_lt
    | false =>
        rcases (hs.spanned hw he hn).right with ⟨e, hedge, hle⟩
        exact lt_of_le_of_lt (hle k hin) (he.highKey n hn hl e hedge)
  rcases hs.locateLeaf_under hw (hs.keysInBounds hw he) hhigh hml hk (hw.reached m hm) hw.root_lt
    with ⟨fuel, hrun⟩
  exact ⟨fuel, m, hrun, hml, hk⟩

/-! ## From all keys to the edges -/

include hs in
/-- The keys below a node of a level are before those below the nodes on its right. -/
theorem Silent.keys_ordered (hb : t.KeysInBounds) (d : Nat) :
    (t.row d).Pairwise fun p q => ∀ k, t.Holds p k → ∀ k', t.Holds q k' → k < k' := by
  induction d with
  | zero => exact List.pairwise_singleton _ _
  | succ d ih =>
      refine List.pairwise_flatMap.mpr ⟨fun n hn => ?_, ?_⟩
      · have hnc := hs.row_lt d n hn
        unfold Node.children
        split
        next => exact List.Pairwise.nil
        next hl =>
          have hl : (t.node n).isLeaf = false := Bool.eq_false_of_not_eq_true hl
          refine List.pairwise_filterMap.mpr (List.pairwise_map.mpr ?_)
          refine List.pairwise_iff_getElem.mpr fun i j hi hj hij => ?_
          rw [List.length_range] at hi hj
          simp only [List.getElem_range]
          rintro a ha b hb' k ⟨m, hm, hml, hk⟩ k' ⟨m', hm', hml', hk'⟩
          have h1 := (hb n hnc hl i (by omega) a ha m hm hml k hk).2 (by omega)
          have h2 := (hb n hnc hl j (by omega) b hb' m' hm' hml' k' hk').1 (by omega)
          have h3 := (hs.passed n hnc).monotone i (j - 1) (by omega) (by omega)
          omega
      · refine ih.imp fun {p q} hpq a ha b hb' k hk k' hk' => ?_
        exact hpq k (hk.of_child (List.reduceOption_mem_iff.mp ha)) k'
          (hk'.of_child (List.reduceOption_mem_iff.mp hb'))

/-- All keys below the node and below the nodes on its right are above `k`. -/
def Beyond (t : Tree) (k n : Nat) : Prop :=
  ∃ d pre post, t.row d = pre ++ n :: post ∧ ∀ z ∈ n :: post, ∀ k', t.Holds z k' → k < k'

theorem Beyond.right {r : Nat} (hlink : ∀ d, Linked t (t.row d)) (h : Beyond t k n)
    (hr : (t.node n).rightSibling = some r) : Beyond t k r := by
  rcases h with ⟨d, pre, post, hrow, hall⟩
  have hlevel := hlink d
  rw [hrow] at hlevel
  have hhead := hlevel.suffix.1.symm.trans hr
  cases post with
  | nil => cases hhead
  | cons r' post =>
      obtain rfl : r' = r := Option.some.inj hhead
      exact ⟨d, pre ++ [n], post, by simp [hrow], fun z hz => hall z (List.mem_cons_of_mem _ hz)⟩

theorem Beyond.child (h : Beyond t k n) (hy : some y ∈ (t.node n).children) : Beyond t k y := by
  rcases h with ⟨d, pre, post, hrow, hall⟩
  rcases List.append_of_mem (List.reduceOption_mem_iff.mpr hy) with ⟨a, b, hab⟩
  refine ⟨d + 1, pre.flatMap (fun n => (t.node n).children.reduceOption) ++ a,
    b ++ post.flatMap (fun n => (t.node n).children.reduceOption), ?_, ?_⟩
  · rw [Tree.row, hrow, List.flatMap_append, List.flatMap_cons, hab]
    simp
  · intro z hz k' hk'
    rw [← List.cons_append, List.mem_append] at hz
    rcases hz with hz | hz
    · have hz : z ∈ (t.node n).children.reduceOption := by
        rw [hab]
        exact List.mem_append_right _ hz
      exact hall n (List.mem_cons_self ..) k' (hk'.of_child (List.reduceOption_mem_iff.mp hz))
    · rcases List.mem_flatMap.mp hz with ⟨p, hp, hz⟩
      exact hall p (List.mem_cons_of_mem _ hp) k'
        (hk'.of_child (List.reduceOption_mem_iff.mp hz))

include hs in
theorem Beyond.lt_count (h : Beyond t k n) : n < t.count := by
  rcases h with ⟨d, pre, post, hrow, _⟩
  exact hs.row_lt d n (by simp [hrow])

include hw hs in
theorem Beyond.follow {n' fuel q : Nat} (h : Beyond t k n)
    (hrun : Latched.follow t q fuel n = some n') :
    Beyond t k n' ∧ (t.node n').isLeaf = (t.node n).isLeaf := by
  induction fuel generalizing n with
  | zero => cases hrun
  | succ fuel ih =>
      rw [Latched.follow] at hrun
      split at hrun
      next =>
        rcases Option.bind_eq_some_iff.mp hrun with ⟨r, hr, hrun⟩
        have hkind := (hs.passed n (h.lt_count hs)).sibling r hr
        rw [hkind]
        exact ih (h.right hw.linked hr) hrun
      next =>
        obtain rfl : n = n' := Option.some.inj hrun
        exact ⟨h, rfl⟩

include hw hs in
/-- A search that gets beyond a key does not come back to it. -/
theorem Silent.locateLeaf_beyond {leaf fuel q : Nat}
    (hfirst : ∀ fuel n', Latched.follow t q fuel n = some n' →
      Beyond t k n' ∧ (t.node n').isLeaf = (t.node n).isLeaf)
    (hrun : t.locateLeaf q fuel n = some leaf) : Beyond t k leaf := by
  induction fuel generalizing n with
  | zero => cases hrun
  | succ fuel ih =>
      rw [Tree.locateLeaf] at hrun
      split at hrun
      next => exact (hfirst _ _ hrun).1
      next hl =>
        simp only [Option.bind_eq_bind, Option.bind_eq_some_iff] at hrun
        rcases hrun with ⟨n', hfollow, y, hy, hrun⟩
        rcases hfirst _ _ hfollow with ⟨h, hkind⟩
        have hl' : (t.node n').isLeaf = false := hkind.trans (Bool.eq_false_of_not_eq_true hl)
        have hmem := Node.child_mem_children hl' (hw.size_lt (h.lt_count hs)).le q
        rw [hy] at hmem
        exact ih (fun _ _ hfollow => (h.child hmem).follow hw hs hfollow) hrun

include hw hs in
/-- The right sibling of a node with the key is beyond the key. -/
theorem Silent.beyond_right (hb : t.KeysInBounds) (hn : n < t.count) (hin : t.Holds n k) {r : Nat}
    (hr : (t.node n).rightSibling = some r) : Beyond t k r := by
  rcases hs.mem_row n hn with ⟨d, hd⟩
  rcases List.append_of_mem hd with ⟨pre, post, hrow⟩
  have hlevel := hw.linked d
  rw [hrow] at hlevel
  have hhead := hlevel.suffix.1.symm.trans hr
  have hord := hs.keys_ordered hb d
  rw [hrow] at hord
  have hbehind := (List.pairwise_cons.mp (List.pairwise_append.mp hord).2.1).1
  cases post with
  | nil => cases hhead
  | cons r' post =>
      obtain rfl : r' = r := Option.some.inj hhead
      exact ⟨d, pre ++ [n], post, by simp [hrow], fun z hz => hbehind z hz k hin⟩

include hw hs in
/-- A search that finds the key does not pass the nodes that have it below them. -/
theorem Silent.lt_highKey (hb : t.KeysInBounds) {leaf fuel : Nat} (hn : n < t.count)
    (hin : t.Holds n k) (hrun : t.locateLeaf k fuel n = some leaf)
    (hleaf : (t.node leaf).isLeaf = true) (hk : k ∈ (t.node leaf).liveKeys) :
    k < (t.node n).highKey := by
  by_contra hle
  have hbeyond : Beyond t k leaf := by
    refine hs.locateLeaf_beyond hw (fun fuel n' hfollow => ?_) hrun
    cases fuel with
    | zero => cases hfollow
    | succ fuel =>
        rw [Latched.follow, if_pos (not_lt.mp hle)] at hfollow
        rcases Option.bind_eq_some_iff.mp hfollow with ⟨r, hr, hfollow⟩
        rw [(hs.passed n hn).sibling r hr]
        exact (hs.beyond_right hw hb hn hin hr).follow hw hs hfollow
  rcases hbeyond with ⟨d, pre, post, _, hall⟩
  have hlt := hall leaf (List.mem_cons_self ..) k ((holds_of_leaf hleaf).mpr hk)
  exact lt_irrefl k hlt

include hw hs in
theorem Silent.lt_highKey_under (hb : t.KeysInBounds) {a leaf fuel : Nat} (hpath : t.Under a n)
    (ha : a < t.count) (hin : t.Holds n k) (hrun : t.locateLeaf k fuel a = some leaf)
    (hleaf : (t.node leaf).isLeaf = true) (hk : k ∈ (t.node leaf).liveKeys) :
    k < (t.node n).highKey := by
  induction hpath using Relation.ReflTransGen.head_induction_on generalizing fuel with
  | refl => exact hs.lt_highKey hw hb ha hin hrun hleaf hk
  | head hchild hpath ih =>
      rename_i a y
      have hl := (Node.mem_children.mp hchild).1
      have hy : t.Holds y k := by
        rcases hin with ⟨m, hm, hml, hkm⟩
        exact ⟨m, hpath.trans hm, hml, hkm⟩
      have hhigh := hs.lt_highKey hw hb ha (hy.of_child hchild) hrun hleaf hk
      cases fuel with
      | zero => cases hrun
      | succ fuel =>
          rw [Tree.locateLeaf, if_neg (by simp [hl]), Latched.follow_of_lt hhigh] at hrun
          simp only [Option.bind_eq_bind, Option.bind_some,
            hs.child_eq hw hb ha hl hchild hy] at hrun
          exact ih (hw.separator a ha y hchild) hrun

include hw hs in
theorem Silent.edgesInBounds (hb : t.KeysInBounds) (hf : t.KeysFound) : t.EdgesInBounds where
  upper n hn hl j hj y hy _ m hedge := by
    have hm := hw.under_lt (hw.child_lt hn hl hj.le hy) hedge.under
    exact (hb n hn hl j hj.le y hy m hedge.under hedge.2 _ (hw.lastKey_mem hm)).2 hj
  lower n hn hl j h1 hj y hy _ m hedge := by
    have hm := hw.under_lt (hw.child_lt hn hl hj hy) hedge.under
    exact (hb n hn hl j hj y hy m hedge.under hedge.2 _ (hw.firstKey_mem hm)).1 h1
  highKey n hn hl m hedge := by
    have hm := hw.under_lt hn hedge.under
    rcases hf m hm hedge.2 _ (hw.lastKey_mem hm) with ⟨fuel, leaf, hrun, hleaf, hk⟩
    exact hs.lt_highKey_under hw hb (hw.reached n hn) hw.root_lt
      ⟨m, hedge.under, hedge.2, hw.lastKey_mem hm⟩ hrun hleaf hk

end Silent

/-- A tree that passes the checks is in order exactly when the leaves at the edges of its
subtrees are within the bounds that the checker does not compare. -/
theorem keysInBounds_iff_edgesInBounds (hw : Wired c t) {fuel : Nat}
    (hcheck : t.check fuel = some []) :
    (t.KeysInBounds ∧ t.KeysFound) ↔ t.EdgesInBounds := by
  rcases hw.silent hcheck with ⟨height, hs⟩
  constructor
  · rintro ⟨hb, hf⟩
    exact hs.edgesInBounds hw hb hf
  · intro he
    exact ⟨hs.keysInBounds hw he, hs.keysFound hw he⟩

/-! ## Three leaves below one node -/

/-- A leaf with one key. -/
def oneKey (key highKey : Nat) (rightSibling : Option Nat) : Node where
  keys _ := key
  values _ := 0
  separators _ := none
  isLeaf := true
  highKey := highKey
  rightSibling := rightSibling
  size := 1

/-- Node `3` separates the leaves `0`, `1` and `2` at the keys `10` and `20`. -/
def threeLeaves (second : Nat) : Tree where
  node
    | 0 => oneKey 1 10 (some 1)
    | 1 => oneKey second 20 (some 2)
    | 2 => oneKey 25 maxKey none
    | _ =>
      { keys := fun index => if index = 0 then 10 else 20
        values := fun _ => 0
        separators := fun index => if index < 3 then some index else none
        isLeaf := false
        highKey := maxKey
        rightSibling := none
        size := 2 }
  parent n := if n < 3 then some 3 else none
  count := 4
  root := 3
  height := 2

theorem threeLeaves_row (second : Nat) :
    (threeLeaves second).row 0 = [3] ∧ (threeLeaves second).row 1 = [0, 1, 2] ∧
      ∀ d, 1 < d → (threeLeaves second).row d = [] := by
  refine ⟨rfl, rfl, fun d hd => row_eq_nil_of_leaves (d := 1) (fun m hm => ?_) hd⟩
  have hm : m ∈ [0, 1, 2] := hm
  simp only [List.mem_cons, List.not_mem_nil, or_false] at hm
  rcases hm with rfl | rfl | rfl <;> rfl

theorem threeLeaves_cases {n : Nat} (hn : n < 4) : n = 0 ∨ n = 1 ∨ n = 2 ∨ n = 3 := by omega

theorem wired_threeLeaves (second : Nat) : Wired .smallest (threeLeaves second) := by
  have hchild : ∀ n < 4, ∀ y, some y ∈ ((threeLeaves second).node n).children ↔
      n = 3 ∧ y < 3 := by
    intro n hn y
    rcases threeLeaves_cases hn with rfl | rfl | rfl | rfl
    · simp [threeLeaves, oneKey, Node.children]
    · simp [threeLeaves, oneKey, Node.children]
    · simp [threeLeaves, oneKey, Node.children]
    · simp [threeLeaves, Node.children, List.range_succ]
      omega
  have hroot : 3 < (threeLeaves second).count := Nat.lt_succ_self 3
  refine ⟨hroot, ?_, ?_, ?_, ?_, ?_, ?_, ?_, ?_⟩
  · intro n hn
    rcases threeLeaves_cases hn with rfl | rfl | rfl | rfl <;> simp [threeLeaves, oneKey]
  · intro n hn
    rcases threeLeaves_cases hn with rfl | rfl | rfl | rfl <;>
      simp [threeLeaves, oneKey, Node.capacity, Capacity.smallest]
  · intro n hn y hy
    exact lt_trans ((hchild n hn y).mp hy).2 hroot
  · intro n hn p hp
    have hp : (if n < 3 then some 3 else none) = some p := hp
    split at hp
    next =>
      obtain rfl : 3 = p := Option.some.inj hp
      exact hroot
    next => cases hp
  · intro p hp hmem
    exact absurd ((hchild p hp 3).mp hmem).2 (by decide)
  · intro n hn hne
    have hlt : n < 3 := by
      have hne : n ≠ 3 := hne
      have hn : n < 4 := hn
      omega
    refine ⟨3, ⟨hroot, (hchild 3 hroot n).mpr ⟨rfl, hlt⟩⟩, fun q hq => ?_⟩
    exact ((hchild q hq.1 n).mp hq.2).1
  · intro n hn
    by_cases heq : n = 3
    · rw [heq]
      exact .refl
    · have hn : n < 4 := hn
      exact .single ((hchild 3 hroot n).mpr ⟨rfl, by omega⟩)
  · intro d
    rcases threeLeaves_row second with ⟨h0, h1, h2⟩
    rcases Nat.lt_trichotomy d 1 with hlt | rfl | hlt
    · obtain rfl : d = 0 := by omega
      rw [h0]
      exact ⟨rfl, trivial⟩
    · rw [h1]
      exact ⟨rfl, rfl, rfl, trivial⟩
    · rw [h2 d hlt]
      exact trivial

/-- The second leaf has a key below the separator key before it, and nothing is printed. -/
theorem check_silent_key_out_of_bounds :
    Wired .smallest (threeLeaves 5) ∧ (threeLeaves 5).check 5 = some [] ∧
      ¬ (threeLeaves 5).KeysInBounds ∧ ¬ (threeLeaves 5).KeysFound := by
  refine ⟨wired_threeLeaves 5, by decide, fun hb => ?_, fun hf => ?_⟩
  · have hkey := hb 3 (by decide) rfl 1 (by decide) 1 rfl 1 .refl rfl 5 (by decide)
    exact absurd (hkey.1 le_rfl) (by decide)
  · rcases hf 1 (by decide) rfl 5 (by decide) with ⟨fuel, leaf, hrun, _, hk⟩
    match fuel, hrun with
    | fuel + 2, hrun =>
      obtain rfl : 0 = leaf := Option.some.inj hrun
      exact absurd hk (by decide)

/-- A key inside the bounds. -/
theorem keysInBounds_fifteen :
    (threeLeaves 15).KeysInBounds ∧ (threeLeaves 15).KeysFound := by
  have hcheck : (threeLeaves 15).check 5 = some [] := by decide
  refine (keysInBounds_iff_edgesInBounds (wired_threeLeaves 15) hcheck).mpr ?_
  have hleaf : ∀ n < 4, ((threeLeaves 15).node n).isLeaf = false → n = 3 := by
    intro n hn hl
    rcases threeLeaves_cases hn with rfl | rfl | rfl | rfl
    · cases hl
    · cases hl
    · cases hl
    · rfl
  have hsep : ∀ j ≤ 2, ∀ y, ((threeLeaves 15).node 3).separators j = some y → y = j := by
    intro j hj y hy
    have hy : (if j < 3 then some j else none) = some y := hy
    rw [if_pos (by omega)] at hy
    exact (Option.some.inj hy).symm
  have hinner : ∀ j < 3, ((threeLeaves 15).node j).isLeaf = true := by
    intro j hj
    rcases threeLeaves_cases (lt_trans hj (by decide : 3 < 4)) with rfl | rfl | rfl | rfl
    · rfl
    · rfl
    · rfl
    · exact absurd hj (lt_irrefl 3)
  refine ⟨fun n hn hl j hj y hy hyl => ?_, fun n hn hl j h1 hj y hy hlast m hm => ?_,
    fun n hn hl m hm => ?_⟩
  · obtain rfl := hleaf n hn hl
    have hj : j < 2 := hj
    obtain rfl := hsep j (by omega) y hy
    rw [hinner y (by omega)] at hyl
    cases hyl
  · obtain rfl := hleaf n hn hl
    have hj : j ≤ 2 := hj
    obtain rfl := hsep j hj y hy
    rw [under_of_leaf (hinner y (by omega)) hm.under]
    rcases Nat.lt_or_ge y 2 with hlt | hge
    · obtain rfl : y = 1 := by omega
      decide
    · obtain rfl : y = 2 := by omega
      exact absurd ⟨rfl, rfl, rfl⟩ hlast
  · obtain rfl := hleaf n hn hl
    have hm := (wired_threeLeaves 15).under_lt hn hm.under
    rcases threeLeaves_cases hm with rfl | rfl | rfl | rfl <;> decide

end BLinkTree

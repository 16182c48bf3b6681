import BLinkTree.Operations

/-! # Levels and owners, whatever the keys are

What the pointers of a tree do in every interleaving, also where a thread writes to a
node that does not cover its key: every node has a level above the levels of its
children, and it is the root, the child of one node, or carried by one insert. With
`exact` the children are on the very next level, which lasts as long as every new root
is stacked on the level of the separator it is created for.
-/

namespace BLinkTree

/-- Where the one pointer to a node is. -/
inductive Place where
  | root
  | child (p : Nat)
  | carried (i : Nat)
  deriving DecidableEq

/-- Auxiliary state: the levels of the nodes and the places of their pointers. -/
structure Plan where
  level : Nat → Nat
  place : Nat → Place

/-- Level `a` is above level `b`. -/
structure Over (exact : Prop) (a b : Nat) : Prop where
  lt : b < a
  eq : exact → a = b + 1

structure Layout (exact : Prop) (c : Capacity) (t : Tree) (g : Plan) : Prop where
  root_lt : t.root < t.count
  height : exact → t.height = g.level t.root + 1
  leaf_iff : ∀ n < t.count, (t.node n).isLeaf = true ↔ g.level n = 0
  level_le : ∀ n < t.count, g.level n ≤ g.level t.root
  right : ∀ n < t.count, ∀ r, (t.node n).rightSibling = some r → r < t.count ∧
    g.level r = g.level n
  size_le : ∀ n < t.count, (t.node n).isLeaf = false → (t.node n).size ≤ c.maxKeys
  child : ∀ n < t.count, ∀ y ∈ (t.node n).children, ∃ m, y = some m ∧ m < t.count ∧
    Over exact (g.level n) (g.level m)
  place_root : ∀ n < t.count, g.place n = .root ↔ n = t.root
  place_child : ∀ n < t.count, ∀ p, g.place n = .child p → p < t.count
  count_child : ∀ p < t.count, ∀ n < t.count,
    (t.node p).children.count (some n) = if g.place n = .child p then 1 else 0

/-- Thread `i` carries the node of `up` and no other one. -/
structure Bears (t : Tree) (g : Plan) (i : Nat) (up : Option Nat) : Prop where
  lt_count : ∀ x, up = some x → x < t.count
  place_iff : ∀ n < t.count, g.place n = .carried i ↔ up = some n

/-- What the other threads can rely on while thread `i` changes the tree. -/
structure Shifts (i : Nat) (t : Tree) (g : Plan) (t' : Tree) (g' : Plan) : Prop where
  count_le : t.count ≤ t'.count
  level_eq : ∀ n < t.count, g'.level n = g.level n
  place_iff : ∀ j, j ≠ i → ∀ n < t'.count,
    g'.place n = .carried j ↔ n < t.count ∧ g.place n = .carried j

variable {exact : Prop} {c : Capacity} {t t' : Tree} {g g' : Plan} {i n x k : Nat}

/-- Nothing but slots and parents has changed. -/
theorem Shifts.of_count (i : Nat) (g : Plan) (h : t'.count = t.count) : Shifts i t g t' g where
  count_le := h.ge
  level_eq := fun _ _ => rfl
  place_iff := by
    intro j _ n hn
    rw [h] at hn
    exact ⟨fun hp => ⟨hn, hp⟩, fun hp => hp.2⟩

theorem Bears.of_count {up : Option Nat} (hb : Bears t g i up) (h : t'.count = t.count) :
    Bears t' g i up := by
  rcases hb with ⟨h1, h2⟩
  rw [← h] at h1 h2
  exact ⟨h1, h2⟩

theorem Bears.shifts {j : Nat} {up : Option Nat} (h : Bears t g j up) (hs : Shifts i t g t' g')
    (hj : j ≠ i) : Bears t' g' j up where
  lt_count := fun x hx => lt_of_lt_of_le (h.lt_count x hx) hs.count_le
  place_iff := by
    intro n hn
    rw [hs.place_iff j hj n hn]
    constructor
    · exact fun hp => (h.place_iff n hp.1).mp hp.2
    · exact fun hx => ⟨h.lt_count n hx, (h.place_iff n (h.lt_count n hx)).mpr hx⟩

theorem Layout.size_lt (h : Layout exact c t g) (hn : n < t.count)
    (hl : (t.node n).isLeaf = false) : (t.node n).size < 2 ^ 14 :=
  lt_of_le_of_lt (h.size_le n hn hl) c.maxKeys_lt

/-- The child that `child` returns is on a lower level. -/
theorem Layout.child_spec (h : Layout exact c t g) (hn : n < t.count)
    (hl : (t.node n).isLeaf = false) (q : Nat) :
    ∃ m, (t.node n).child q = some m ∧ m < t.count ∧ Over exact (g.level n) (g.level m) :=
  h.child n hn _ (Node.child_mem_children hl (h.size_lt hn hl).le q)

/-! ## The initial tree -/

/-- One leaf, which is the root. -/
def Plan.initial : Plan where
  level := fun _ => 0
  place := fun _ => .root

theorem layout_empty (exact : Prop) (c : Capacity) (memory : Nat → Memory) :
    Layout exact c (Tree.empty memory) Plan.initial where
  root_lt := Nat.one_pos
  height := fun _ => rfl
  leaf_iff := fun n _ => by simp [Tree.empty, Node.create, Plan.initial]
  level_le := fun _ _ => le_rfl
  right := fun n _ r hr => by simp [Tree.empty, Node.create] at hr
  size_le := fun n _ hl => by simp [Tree.empty, Node.create] at hl
  child := fun n _ y hy => by simp [Tree.empty, Node.create, Node.children] at hy
  place_root := fun n hn => by
    have hn0 : n = 0 := Nat.lt_one_iff.mp hn
    simp [Plan.initial, Tree.empty, hn0]
  place_child := fun n _ p hp => by simp [Plan.initial] at hp
  count_child := fun p _ n _ => by simp [Plan.initial, Tree.empty, Node.create, Node.children]

/-! ## Leaves -/

theorem children_of_leaf (hl : (t.node n).isLeaf = true) : (t.node n).children = [] := by
  simp [Node.children, hl]

/-- Writing slots of a leaf. -/
theorem Layout.writeLeaf (h : Layout exact c t g) (hw : IsWrite t t' n)
    (hl : (t.node n).isLeaf = true) (hheight : t'.height = t.height) : Layout exact c t' g := by
  have hsame : ∀ m, (t'.node m).isLeaf = (t.node m).isLeaf ∧
      (t'.node m).rightSibling = (t.node m).rightSibling ∧
      (t'.node m).children = (t.node m).children := by
    intro m
    by_cases hm : m = n
    · rw [hm, children_of_leaf hl, children_of_leaf (hw.isLeaf.trans hl)]
      exact ⟨hw.isLeaf, hw.right, rfl⟩
    · rw [hw.frame m hm]
      exact ⟨rfl, rfl, rfl⟩
  constructor
  · rw [hw.root, hw.count]
    exact h.root_lt
  · rw [hw.root, hheight]
    exact h.height
  · rw [hw.count]
    intro m hm
    rw [(hsame m).1]
    exact h.leaf_iff m hm
  · rw [hw.count, hw.root]
    exact h.level_le
  · rw [hw.count]
    intro m hm
    rw [(hsame m).2.1]
    exact h.right m hm
  · rw [hw.count]
    intro m hm hml
    have hmn : m ≠ n := by
      rintro rfl
      rw [hw.isLeaf, hl] at hml
      exact absurd hml (by decide)
    rw [hw.frame m hmn] at hml ⊢
    exact h.size_le m hm hml
  · rw [hw.count]
    intro m hm
    rw [(hsame m).2.2]
    exact h.child m hm
  · rw [hw.count, hw.root]
    exact h.place_root
  · rw [hw.count]
    exact h.place_child
  · rw [hw.count]
    intro p hp
    rw [(hsame p).2.2]
    exact h.count_child p hp

/-- Levels and places after a split of `n`. -/
def Plan.split (g : Plan) (i n r : Nat) (place : Nat → Place) : Plan where
  level := Slots.store g.level r (g.level n)
  place := Slots.store place r (.carried i)

/-- A split adds a node on the level of the old one; the children are the matter of the kind
of node. -/
theorem Layout.split (h : Layout exact c t g) (hn : n < t.count) {s : Nat}
    (hs : IsSplit t t' n s) (hheight : t'.height = t.height) {place : Nat → Place}
    (hsize : (t'.node n).isLeaf = false →
      (t'.node n).size ≤ c.maxKeys ∧ (t'.node t.count).size ≤ c.maxKeys)
    (hchild : ∀ y, y ∈ (t'.node n).children ∨ y ∈ (t'.node t.count).children →
      ∃ m, y = some m ∧ m < t.count ∧ Over exact (g.level n) (g.level m))
    (hroot : ∀ m < t.count, place m = .root ↔ m = t.root)
    (hplace : ∀ m < t.count, ∀ p, place m = .child p → p < t.count + 1)
    (hcount : ∀ p < t.count + 1, ∀ m < t.count,
      (t'.node p).children.count (some m) = if place m = .child p then 1 else 0) :
    Layout exact c t' (g.split i n t.count place) := by
  have hlevels : ∀ m < t.count, (g.split i n t.count place).level m = g.level m :=
    fun m hm => Slots.store_of_ne _ _ hm.ne
  have hlevelc : (g.split i n t.count place).level t.count = g.level n := Slots.store_self _ _ _
  have hplaces : ∀ m < t.count, (g.split i n t.count place).place m = place m :=
    fun m hm => Slots.store_of_ne _ _ hm.ne
  have hplacec : (g.split i n t.count place).place t.count = .carried i := Slots.store_self _ _ _
  have hold : ∀ m < t.count, m ≠ n → t'.node m = t.node m := fun m hm hmn => hs.frame m hmn hm.ne
  have hchildren : ∀ m < t.count + 1, ∀ y ∈ (t'.node m).children, ∃ z, y = some z ∧ z < t.count ∧
      Over exact ((g.split i n t.count place).level m) (g.level z) := by
    intro m hm y hy
    by_cases hmc : m = t.count
    · rw [hmc] at hy
      rw [hmc, hlevelc]
      exact hchild y (Or.inr hy)
    · have hm' : m < t.count := by omega
      rw [hlevels m hm']
      by_cases hmn : m = n
      · rw [hmn] at hy ⊢
        exact hchild y (Or.inl hy)
      · rw [hold m hm' hmn] at hy
        exact h.child m hm' y hy
  constructor
  · have := h.root_lt
    rw [hs.root, hs.count]
    omega
  · intro he
    rw [hheight, hs.root, hlevels _ h.root_lt]
    exact h.height he
  · intro m hm
    rw [hs.count] at hm
    by_cases hmc : m = t.count
    · rw [hmc, hs.new_isLeaf, hlevelc]
      exact h.leaf_iff n hn
    · have hm' : m < t.count := by omega
      rw [hlevels m hm']
      by_cases hmn : m = n
      · rw [hmn, hs.left_isLeaf]
        exact h.leaf_iff n hn
      · rw [hold m hm' hmn]
        exact h.leaf_iff m hm'
  · intro m hm
    rw [hs.count] at hm
    rw [hs.root, hlevels _ h.root_lt]
    by_cases hmc : m = t.count
    · rw [hmc, hlevelc]
      exact h.level_le n hn
    · rw [hlevels m (by omega)]
      exact h.level_le m (by omega)
  · intro m hm r hr
    rw [hs.count] at hm ⊢
    by_cases hmc : m = t.count
    · rw [hmc, hs.new_right] at hr
      have hold := h.right n hn r hr
      rw [hmc, hlevelc, hlevels r hold.1]
      exact ⟨by omega, hold.2⟩
    · have hm' : m < t.count := by omega
      by_cases hmn : m = n
      · rw [hmn, hs.left_right, Option.some.injEq] at hr
        rw [hmn, ← hr, hlevelc, hlevels n hn]
        exact ⟨by omega, rfl⟩
      · rw [hold m hm' hmn] at hr
        have hold := h.right m hm' r hr
        rw [hlevels m hm', hlevels r hold.1]
        exact ⟨by omega, hold.2⟩
  · intro m hm hml
    rw [hs.count] at hm
    by_cases hmc : m = t.count
    · rw [hmc, hs.new_isLeaf, ← hs.left_isLeaf] at hml
      rw [hmc]
      exact (hsize hml).2
    · have hm' : m < t.count := by omega
      by_cases hmn : m = n
      · rw [hmn] at hml ⊢
        exact (hsize hml).1
      · rw [hold m hm' hmn] at hml ⊢
        exact h.size_le m hm' hml
  · intro m hm y hy
    rw [hs.count] at hm ⊢
    rcases hchildren m hm y hy with ⟨z, rfl, hz, hover⟩
    refine ⟨z, rfl, by omega, ?_⟩
    rw [hlevels z hz]
    exact hover
  · intro m hm
    rw [hs.count] at hm
    rw [hs.root]
    by_cases hmc : m = t.count
    · have := h.root_lt
      rw [hmc, hplacec]
      simp only [reduceCtorEq, false_iff]
      omega
    · rw [hplaces m (by omega)]
      exact hroot m (by omega)
  · intro m hm p hp
    rw [hs.count] at hm ⊢
    by_cases hmc : m = t.count
    · rw [hmc, hplacec] at hp
      exact absurd hp (by simp)
    · rw [hplaces m (by omega)] at hp
      exact hplace m (by omega) p hp
  · intro p hp m hm
    rw [hs.count] at hp hm
    by_cases hmc : m = t.count
    · rw [hmc, hplacec, if_neg (by simp)]
      refine List.count_eq_zero.mpr fun hmem => ?_
      rcases hchildren p hp _ hmem with ⟨z, hz, hzc, _⟩
      rw [Option.some.injEq] at hz
      omega
    · rw [hplaces m (by omega)]
      exact hcount p hp m (by omega)

theorem Shifts.split {place : Nat → Place} {s : Nat} (hs : IsSplit t t' n s)
    (hplace : ∀ j, j ≠ i → ∀ m < t.count, place m = .carried j ↔ g.place m = .carried j) :
    Shifts i t g t' (g.split i n t.count place) where
  count_le := by
    rw [hs.count]
    omega
  level_eq := fun m hm => Slots.store_of_ne _ _ hm.ne
  place_iff := by
    intro j hj m hm
    rw [hs.count] at hm
    by_cases hmc : m = t.count
    · have hp : (g.split i n t.count place).place t.count = .carried i := Slots.store_self _ _ _
      rw [hmc, hp]
      simp only [Place.carried.injEq, lt_irrefl, false_and, iff_false]
      exact Ne.symm hj
    · have hm' : m < t.count := by omega
      have hp : (g.split i n t.count place).place m = place m := Slots.store_of_ne _ _ hmc
      rw [hp, hplace j hj m hm']
      exact ⟨fun hc => ⟨hm', hc⟩, fun hc => hc.2⟩

theorem Bears.split {place : Nat → Place} {s : Nat} (hs : IsSplit t t' n s)
    (hplace : ∀ m < t.count, place m ≠ .carried i) :
    Bears t' (g.split i n t.count place) i (some t.count) where
  lt_count := by
    intro x hx
    rw [← Option.some.inj hx, hs.count]
    omega
  place_iff := by
    intro m hm
    rw [hs.count] at hm
    by_cases hmc : m = t.count
    · have hp : (g.split i n t.count place).place t.count = .carried i := Slots.store_self _ _ _
      rw [hmc, hp]
      simp
    · have hp : (g.split i n t.count place).place m = place m := Slots.store_of_ne _ _ hmc
      rw [hp]
      simp only [hplace m (by omega), Option.some.injEq, false_iff]
      exact Ne.symm hmc

/-- What a step of thread `i` leaves: the thread carries `up`, a node of level `l`. -/
def Hands (exact : Prop) (c : Capacity) (i : Nat) (t : Tree) (g : Plan) (t' : Tree) (l : Nat)
    (up : Option Nat) : Prop :=
  ∃ g', Layout exact c t' g' ∧ Shifts i t g t' g' ∧ Bears t' g' i up ∧
    ∀ x, up = some x → g'.level x = l

theorem Layout.hands_writeLeaf (h : Layout exact c t g) (hb : Bears t g i none)
    (hw : IsWrite t t' n) (hl : (t.node n).isLeaf = true) (hheight : t'.height = t.height) :
    Hands exact c i t g t' 0 none :=
  ⟨g, h.writeLeaf hw hl hheight, Shifts.of_count i g hw.count, hb.of_count hw.count,
    fun _ hx => absurd hx (by simp)⟩

/-- `insert_into_leaf` on a leaf. -/
theorem Layout.insertIntoLeaf (h : Layout exact c t g) (hb : Bears t g i none) (hn : n < t.count)
    (hl : (t.node n).isLeaf = true) (k : Nat) (v : Value) :
    Hands exact c i t g (t.insertIntoLeaf c n k v).1 0
      ((t.insertIntoLeaf c n k v).2.map Prod.fst) := by
  rcases insertIntoLeaf_cases c t n k v with ⟨_, he⟩ | ⟨_, _, he⟩ | ⟨_, _, he⟩
  · rw [he]
    exact ⟨g, h, Shifts.of_count i g rfl, hb, fun _ hx => absurd hx (by simp)⟩
  · have hw : IsWrite t (t.setNode n ((t.node n).insertValue ((t.node n).index k) v k)) n :=
      isWrite_setNode rfl rfl rfl
    rw [he]
    exact h.hands_writeLeaf hb hw hl rfl
  · have hs := splitLeafNode_isSplit (c := c) k v hn hl
    have hleft := children_of_leaf (hs.left_isLeaf.trans hl)
    have hnew := children_of_leaf (hs.new_isLeaf.trans hl)
    have hheight : (t.splitLeafNode c n k v).1.height = t.height := by
      rw [splitLeafNode_eq]
      rfl
    have hlayout : Layout exact c (t.splitLeafNode c n k v).1 (g.split i n t.count g.place) := by
      refine h.split hn hs hheight ?_ ?_ h.place_root ?_ ?_
      · intro hinner
        rw [hs.left_isLeaf, hl] at hinner
        exact absurd hinner (by decide)
      · intro y hy
        rw [hleft, hnew] at hy
        simp at hy
      · exact fun m hm p hp => Nat.lt_succ_of_lt (h.place_child m hm p hp)
      · intro p hp m hm
        by_cases hpc : p = t.count
        · rw [hpc, hnew, if_neg fun hc => (h.place_child m hm _ hc).false]
          rfl
        · have hpl : (t.splitLeafNode c n k v).1.node p = t.node p ∨ p = n := by
            by_cases hpn : p = n
            · exact Or.inr hpn
            · exact Or.inl (hs.frame p hpn hpc)
          have hsame : ((t.splitLeafNode c n k v).1.node p).children = (t.node p).children := by
            rcases hpl with hpl | hpl
            · rw [hpl]
            · rw [hpl, hleft, children_of_leaf hl]
          rw [hsame]
          exact h.count_child p (by omega) m hm
    rw [he]
    refine ⟨_, hlayout, Shifts.split hs fun _ _ _ _ => Iff.rfl, Bears.split hs ?_, ?_⟩
    · intro m hm hc
      have := (hb.place_iff m hm).mp hc
      exact absurd this (by simp)
    · intro x hx
      rw [← Option.some.inj hx]
      show (g.split i n t.count g.place).level t.count = 0
      rw [← (h.leaf_iff n hn).mp hl]
      exact Slots.store_self _ _ _

/-! ## Inner nodes -/

/-- `insert_into_inner` stored `x` in node `n`. -/
structure Stores (c : Capacity) (t t' : Tree) (n x : Nat) : Prop where
  write : IsWrite t t' n
  height : t'.height = t.height
  size_le : (t'.node n).size ≤ c.maxKeys
  children : (t'.node n).children.Perm (some x :: (t.node n).children)

/-- `insert_into_inner` split node `n` and stored `x` in one of the halves. -/
structure Divides (c : Capacity) (t t' : Tree) (n x k : Nat) : Prop where
  split : IsSplit t t' n k
  height : t'.height = t.height
  left_size : (t'.node n).size ≤ c.maxKeys
  new_size : (t'.node t.count).size ≤ c.maxKeys
  children : ((t'.node n).children ++ (t'.node t.count).children).Perm
    (some x :: (t.node n).children)

/-- The two branches of `insert_into_inner`. -/
theorem insertIntoInner_links (hn : n < t.count) (hl : (t.node n).isLeaf = false)
    (hsize : (t.node n).size ≤ c.maxKeys) (hsome : none ∉ (t.node n).children) (s x : Nat) :
    (∃ t', t.insertIntoInner c n s x = some (t', none) ∧ Stores c t t' n x) ∨
      ∃ t' k, t.insertIntoInner c n s x = some (t', some (t.count, k)) ∧ Divides c t t' n x k := by
  have hcap : (t.node n).capacity c = c.maxKeys := by simp [Node.capacity, hl]
  cases hf : (t.node n).isFull c with
  | false =>
      have hlt : (t.node n).size < c.maxKeys := by
        rw [← hcap]
        exact not_le.mp (of_decide_eq_false hf)
      refine Or.inl ⟨_, if_pos hf, isWrite_setNode rfl rfl rfl, rfl, ?_, ?_⟩
      · rw [setNode_node_self]
        exact hlt
      · rw [setNode_node_self]
        exact Node.children_insertSeparator hl (Node.index_le _ s) s x
  | true =>
      have hfull : (t.node n).size = c.maxKeys := by
        refine le_antisymm hsize ?_
        rw [← hcap]
        exact of_decide_eq_true hf
      have hshape := innerHalves_shape s x hl hfull
      have hchildren : ∀ y ∈ (t.innerRight c n s x).children, y ≠ none := by
        rintro y hy rfl
        have hmem : none ∈ some x :: (t.node n).children :=
          hshape.children.mem_iff.mp (List.mem_append_right _ hy)
        simp only [List.mem_cons, reduceCtorEq, false_or] at hmem
        exact hsome hmem
      rcases splitInnerNode_spec hn hl hshape hchildren with ⟨t', he, hs, hleft, hnew, hh, _⟩
      refine Or.inr ⟨t', _, ?_, hs, hh, ?_, ?_, ?_⟩
      · unfold Tree.insertIntoInner
        simp only [hf, he]
        rfl
      · rw [hleft]
        show (t.innerHalves c n s x).1.size ≤ c.maxKeys
        rw [hshape.left_size]
        omega
      · rw [hnew]
        show (t.innerHalves c n s x).2.1.size ≤ c.maxKeys
        rw [hshape.new_size]
        omega
      · rw [hleft, hnew]
        exact hshape.children

theorem Layout.none_notMem (h : Layout exact c t g) (hn : n < t.count) :
    none ∉ (t.node n).children := by
  intro hmem
  rcases h.child n hn _ hmem with ⟨m, hm, _⟩
  exact absurd hm (by simp)

/-- The plan in which `x` is a child of `p`. -/
def Plan.stored (g : Plan) (x p : Nat) : Plan :=
  { g with place := Slots.store g.place x (.child p) }

theorem Shifts.stored (hb : Bears t g i (some x)) (hcount : t'.count = t.count) (p : Nat) :
    Shifts i t g t' (g.stored x p) where
  count_le := hcount.ge
  level_eq := fun _ _ => rfl
  place_iff := by
    intro j hj m hm
    rw [hcount] at hm
    by_cases hmx : m = x
    · have hx : g.place x = .carried i := (hb.place_iff x (hb.lt_count x rfl)).mpr rfl
      have hp : (g.stored x p).place x = .child p := Slots.store_self _ _ _
      rw [hmx, hp, hx]
      simp only [reduceCtorEq, Place.carried.injEq, false_iff, not_and]
      exact fun _ => Ne.symm hj
    · have hp : (g.stored x p).place m = g.place m := Slots.store_of_ne _ _ hmx
      rw [hp]
      exact ⟨fun hc => ⟨hm, hc⟩, fun hc => hc.2⟩

theorem Bears.stored (hb : Bears t g i (some x)) (hcount : t'.count = t.count) (p : Nat) :
    Bears t' (g.stored x p) i none where
  lt_count := fun _ hx => absurd hx (by simp)
  place_iff := by
    intro m hm
    rw [hcount] at hm
    simp only [reduceCtorEq, iff_false]
    by_cases hmx : m = x
    · have hp : (g.stored x p).place x = .child p := Slots.store_self _ _ _
      rw [hmx, hp]
      simp
    · have hp : (g.stored x p).place m = g.place m := Slots.store_of_ne _ _ hmx
      rw [hp, hb.place_iff m hm, Option.some.injEq]
      exact Ne.symm hmx

theorem Layout.stores (h : Layout exact c t g) (hb : Bears t g i (some x)) (hn : n < t.count)
    (hx : Over exact (g.level n) (g.level x))
    (hs : Stores c t t' n x) : Layout exact c t' (g.stored x n) := by
  have hw := hs.write
  have hxc := hb.lt_count x rfl
  have hxp : g.place x = .carried i := (hb.place_iff x hxc).mpr rfl
  have hold : ∀ m, m ≠ n → t'.node m = t.node m := hw.frame
  have hplaces : ∀ m, m ≠ x → (g.stored x n).place m = g.place m :=
    fun m hm => Slots.store_of_ne _ _ hm
  have hplacex : (g.stored x n).place x = .child n := Slots.store_self _ _ _
  constructor
  · rw [hw.root, hw.count]
    exact h.root_lt
  · rw [hw.root, hs.height]
    exact h.height
  · rw [hw.count]
    intro m hm
    by_cases hmn : m = n
    · rw [hmn, hw.isLeaf]
      exact h.leaf_iff n hn
    · rw [hold m hmn]
      exact h.leaf_iff m hm
  · rw [hw.count, hw.root]
    exact h.level_le
  · rw [hw.count]
    intro m hm
    by_cases hmn : m = n
    · rw [hmn, hw.right]
      exact h.right n hn
    · rw [hold m hmn]
      exact h.right m hm
  · rw [hw.count]
    intro m hm hml
    by_cases hmn : m = n
    · rw [hmn]
      exact hs.size_le
    · rw [hold m hmn] at hml ⊢
      exact h.size_le m hm hml
  · rw [hw.count]
    intro m hm y hy
    by_cases hmn : m = n
    · rw [hmn] at hy ⊢
      rcases List.mem_cons.mp (hs.children.mem_iff.mp hy) with rfl | hy
      · exact ⟨x, rfl, hxc, hx⟩
      · exact h.child n hn y hy
    · rw [hold m hmn] at hy
      exact h.child m hm y hy
  · rw [hw.count, hw.root]
    intro m hm
    by_cases hmx : m = x
    · have hne : x ≠ t.root := fun hc => by
        have := (h.place_root x hxc).mpr hc
        rw [hxp] at this
        exact absurd this (by simp)
      rw [hmx, hplacex]
      simp only [reduceCtorEq, false_iff]
      exact hne
    · rw [hplaces m hmx]
      exact h.place_root m hm
  · rw [hw.count]
    intro m hm p hp
    by_cases hmx : m = x
    · rw [hmx, hplacex, Place.child.injEq] at hp
      rw [← hp]
      exact hn
    · rw [hplaces m hmx] at hp
      exact h.place_child m hm p hp
  · rw [hw.count]
    intro p hp m hm
    have hcount := h.count_child p hp m hm
    by_cases hpn : p = n
    · rw [hpn] at hcount ⊢
      rw [hs.children.count_eq, List.count_cons, hcount]
      by_cases hmx : m = x
      · rw [hmx, hplacex, hxp]
        simp
      · rw [hplaces m hmx]
        simp [Ne.symm hmx]
    · rw [hold p hpn, hcount]
      by_cases hmx : m = x
      · rw [hmx, hplacex, hxp]
        simp [Ne.symm hpn]
      · rw [hplaces m hmx]

/-- The places after a split of inner node `n` into `n` and `r`. -/
def Plan.divided (g : Plan) (t' : Tree) (n r m : Nat) : Place :=
  if some m ∈ (t'.node r).children then .child r
  else if some m ∈ (t'.node n).children then .child n
  else g.place m

/-- In each half the pointer to `m` is stored as the plan says. -/
theorem Layout.count_divided (h : Layout exact c t g) (hb : Bears t g i (some x))
    (hn : n < t.count) (hd : Divides c t t' n x k) {m : Nat} (hm : m < t.count) :
    ((t'.node n).children.count (some m) = if g.divided t' n t.count m = .child n then 1 else 0) ∧
      ((t'.node t.count).children.count (some m) =
        if g.divided t' n t.count m = .child t.count then 1 else 0) ∧
      (g.divided t' n t.count m = g.place m ∧ g.place m ≠ .child n ∧ m ≠ x ∨
        (g.divided t' n t.count m = .child n ∨ g.divided t' n t.count m = .child t.count) ∧
          (g.place m = .child n ∨ m = x)) := by
  have hxp : g.place x = .carried i := (hb.place_iff x (hb.lt_count x rfl)).mpr rfl
  have hsum := hd.children.count_eq (some m)
  rw [List.count_append, List.count_cons, h.count_child n hn m hm] at hsum
  have hr : (t'.node t.count).children.count (some m) = 0 ↔
      some m ∉ (t'.node t.count).children := List.count_eq_zero
  have hl : (t'.node n).children.count (some m) = 0 ↔ some m ∉ (t'.node n).children :=
    List.count_eq_zero
  have hpc : g.place m ≠ .child t.count := fun hc => (h.place_child m hm _ hc).false
  -- the pointer was in `n` or carried, not both
  have hone : (if g.place m = .child n then 1 else 0) + (if (some x == some m) then 1 else 0) =
      if g.place m = .child n ∨ m = x then 1 else 0 := by
    by_cases hmx : m = x
    · rw [hmx, hxp]
      simp
    · simp [hmx, Ne.symm hmx]
  rw [hone] at hsum
  unfold Plan.divided
  by_cases h1 : some m ∈ (t'.node t.count).children
  · have hpos : (t'.node t.count).children.count (some m) ≠ 0 := fun hc => hr.mp hc h1
    simp only [if_pos h1, Place.child.injEq, hn.ne', if_false, if_true]
    by_cases hold : g.place m = .child n ∨ m = x
    · rw [if_pos hold] at hsum
      exact ⟨by omega, by omega, Or.inr ⟨Or.inr trivial, hold⟩⟩
    · rw [if_neg hold] at hsum
      omega
  · rw [if_neg h1]
    have hzero := hr.mpr h1
    by_cases h2 : some m ∈ (t'.node n).children
    · have hpos : (t'.node n).children.count (some m) ≠ 0 := fun hc => hl.mp hc h2
      simp only [if_pos h2, Place.child.injEq, hn.ne, if_false, if_true]
      by_cases hold : g.place m = .child n ∨ m = x
      · rw [if_pos hold] at hsum
        exact ⟨by omega, hzero, Or.inr ⟨Or.inl trivial, hold⟩⟩
      · rw [if_neg hold] at hsum
        omega
    · rw [if_neg h2]
      have hzero' := hl.mpr h2
      by_cases hold : g.place m = .child n ∨ m = x
      · rw [if_pos hold] at hsum
        omega
      · rw [not_or] at hold
        rw [if_neg hold.1, if_neg hpc]
        exact ⟨hzero', hzero, Or.inl ⟨rfl, hold⟩⟩

theorem Layout.divides (h : Layout exact c t g) (hb : Bears t g i (some x)) (hn : n < t.count)
    (hx : Over exact (g.level n) (g.level x)) (hd : Divides c t t' n x k) :
    Hands exact c i t g t' (g.level n) (some t.count) := by
  have hs := hd.split
  have hxc := hb.lt_count x rfl
  have hxp : g.place x = .carried i := (hb.place_iff x hxc).mpr rfl
  have hcounts := fun m hm => h.count_divided hb hn hd (m := m) hm
  have hcarried : ∀ j, ∀ m < t.count, g.divided t' n t.count m = .carried j ↔
      g.place m = .carried j ∧ m ≠ x := by
    intro j m hm
    rcases (hcounts m hm).2.2 with ⟨he, hne, hmx⟩ | ⟨hnew, hold⟩
    · rw [he]
      exact ⟨fun hc => ⟨hc, hmx⟩, fun hc => hc.1⟩
    · constructor
      · intro hc
        rcases hnew with hnew | hnew <;> rw [hnew] at hc <;> exact absurd hc (by simp)
      · rintro ⟨hc, hmx⟩
        rcases hold with hold | hold
        · rw [hold] at hc
          exact absurd hc (by simp)
        · exact absurd hold hmx
  have hlayout : Layout exact c t' (g.split i n t.count (g.divided t' n t.count)) := by
    refine h.split hn hs hd.height (fun _ => ⟨hd.left_size, hd.new_size⟩) ?_ ?_ ?_ ?_
    · intro y hy
      have hmem : y ∈ some x :: (t.node n).children :=
        hd.children.mem_iff.mp (List.mem_append.mpr hy)
      rcases List.mem_cons.mp hmem with rfl | hmem
      · exact ⟨x, rfl, hxc, hx⟩
      · exact h.child n hn y hmem
    · intro m hm
      rw [← h.place_root m hm]
      rcases (hcounts m hm).2.2 with ⟨he, _, _⟩ | ⟨hnew, hold⟩
      · rw [he]
      · have h1 : g.divided t' n t.count m ≠ .root := by
          rcases hnew with hnew | hnew <;> rw [hnew] <;> simp
        have h2 : g.place m ≠ .root := by
          rcases hold with hold | hold
          · rw [hold]
            simp
          · rw [hold, hxp]
            simp
        simp [h1, h2]
    · intro m hm p hp
      rcases (hcounts m hm).2.2 with ⟨he, _, _⟩ | ⟨hnew | hnew, _⟩
      · rw [he] at hp
        exact Nat.lt_succ_of_lt (h.place_child m hm p hp)
      · rw [hnew, Place.child.injEq] at hp
        omega
      · rw [hnew, Place.child.injEq] at hp
        omega
    · intro p hp m hm
      by_cases hpc : p = t.count
      · rw [hpc]
        exact (hcounts m hm).2.1
      · by_cases hpn : p = n
        · rw [hpn]
          exact (hcounts m hm).1
        · rw [hs.frame p hpn hpc, h.count_child p (by omega) m hm]
          rcases (hcounts m hm).2.2 with ⟨he, _, _⟩ | ⟨hnew, hold⟩
          · rw [he]
          · have h1 : g.divided t' n t.count m ≠ .child p := by
              rcases hnew with hnew | hnew
              · rw [hnew]
                simpa using Ne.symm hpn
              · rw [hnew]
                simpa using Ne.symm hpc
            have h2 : g.place m ≠ .child p := by
              rcases hold with hold | hold
              · rw [hold]
                simpa using Ne.symm hpn
              · rw [hold, hxp]
                simp
            rw [if_neg h1, if_neg h2]
  refine ⟨_, hlayout, Shifts.split hs ?_, Bears.split hs ?_, ?_⟩
  · intro j hj m hm
    rw [hcarried j m hm]
    refine ⟨fun hc => hc.1, fun hc => ⟨hc, ?_⟩⟩
    rintro rfl
    rw [hxp, Place.carried.injEq] at hc
    exact hj hc.symm
  · intro m hm hc
    rcases (hcarried i m hm).mp hc with ⟨hp, hmx⟩
    exact hmx (Option.some.inj ((hb.place_iff m hm).mp hp)).symm
  · intro y hy
    rw [← Option.some.inj hy]
    exact Slots.store_self _ _ _

/-- `insert_into_inner` with the separator that the thread carries. -/
theorem Layout.insertIntoInner (h : Layout exact c t g) (hb : Bears t g i (some x))
    (hn : n < t.count) (hx : Over exact (g.level n) (g.level x)) (s : Nat) :
    ∃ t' up, t.insertIntoInner c n s x = some (t', up) ∧
      Hands exact c i t g t' (g.level n) (up.map Prod.fst) := by
  have hl : (t.node n).isLeaf = false := by
    cases hl : (t.node n).isLeaf with
    | false => rfl
    | true =>
        have := (h.leaf_iff n hn).mp hl
        have := hx.lt
        omega
  rcases insertIntoInner_links hn hl (h.size_le n hn hl) (h.none_notMem hn) s x with
    ⟨t', he, hs⟩ | ⟨t', k, he, hd⟩
  · exact ⟨t', none, he, _, h.stores hb hn hx hs, Shifts.stored hb hs.write.count n,
      hb.stored hs.write.count n, fun _ hy => absurd hy (by simp)⟩
  · exact ⟨t', some (t.count, k), he, h.divides hb hn hx hd⟩

/-! ## The root -/

/-- The plan after root `r` was stacked on `old` for the separator `x`. -/
def Plan.newRoot (g : Plan) (old x r : Nat) : Plan where
  level := Slots.store g.level r (g.level old + 1)
  place := fun m => if m = r then .root else if m = old ∨ m = x then .child r else g.place m

section NewRoot

variable {old r : Nat}

theorem Plan.newRoot_level {m : Nat} (hm : m < r) : (g.newRoot old x r).level m = g.level m :=
  Slots.store_of_ne _ _ hm.ne

theorem Plan.newRoot_level_self : (g.newRoot old x r).level r = g.level old + 1 :=
  Slots.store_self _ _ _

theorem Plan.newRoot_place {m : Nat} (hm : m < r) :
    (g.newRoot old x r).place m = if m = old ∨ m = x then .child r else g.place m :=
  if_neg hm.ne

theorem Plan.newRoot_place_self : (g.newRoot old x r).place r = .root :=
  if_pos rfl

end NewRoot

theorem IsNewRoot.children {left right key : Nat} (hr : IsNewRoot t t' left right key) :
    (t'.node t.count).children = [some left, some right] := by
  rw [Node.children_of_inner hr.isLeaf, hr.first, hr.seps]
  rfl

theorem Bears.ne_root (hb : Bears t g i (some x)) (h : Layout exact c t g) : x ≠ t.root := by
  rintro rfl
  have hxp : g.place t.root = .carried i := (hb.place_iff _ h.root_lt).mpr rfl
  rw [(h.place_root _ h.root_lt).mpr rfl] at hxp
  exact absurd hxp (by simp)

/-- The new root points to the old one and to the separator, and no other pointer changes. -/
theorem Layout.count_newRoot (h : Layout exact c t g) (hb : Bears t g i (some x)) {s : Nat}
    (hr : IsNewRoot t t' t.root x s) {p m : Nat} (hp : p < t.count + 1) (hm : m < t.count + 1) :
    (t'.node p).children.count (some m) =
      if (g.newRoot t.root x t.count).place m = .child p then 1 else 0 := by
  have hrc := h.root_lt
  have hxc := hb.lt_count x rfl
  have hxr := hb.ne_root h
  by_cases hpc : p = t.count
  · rw [hpc, hr.children]
    by_cases hmc : m = t.count
    · rw [hmc, Plan.newRoot_place_self]
      simp [hrc.ne, hxc.ne]
    · have hm' : m < t.count := by omega
      rw [Plan.newRoot_place hm']
      by_cases hm1 : m = t.root
      · simp [hm1, hxr]
      · by_cases hm2 : m = x
        · simp [hm2, Ne.symm hxr]
        · have hpm : g.place m ≠ .child t.count :=
            fun hc => (h.place_child m hm' _ hc).false
          simp [hm1, hm2, Ne.symm hm1, Ne.symm hm2, hpm]
  · have hp' : p < t.count := by omega
    rw [hr.frame p hpc]
    by_cases hmc : m = t.count
    · rw [hmc, Plan.newRoot_place_self, if_neg (by simp)]
      refine List.count_eq_zero.mpr fun hmem => ?_
      rcases h.child p hp' _ hmem with ⟨z, hz, hzc, _⟩
      rw [Option.some.injEq] at hz
      omega
    · have hm' : m < t.count := by omega
      rw [h.count_child p hp' m hm', Plan.newRoot_place hm']
      by_cases hm1 : m = t.root ∨ m = x
      · have hne : g.place m ≠ .child p := by
          rcases hm1 with rfl | rfl
          · rw [(h.place_root _ hrc).mpr rfl]
            simp
          · rw [(hb.place_iff _ hxc).mpr rfl]
            simp
        rw [if_pos hm1, if_neg hne, if_neg (by simpa using Ne.symm hpc)]
      · rw [if_neg hm1]

/-- The separator is no longer carried. -/
theorem Layout.carried_newRoot (h : Layout exact c t g) (j : Nat) {m : Nat}
    (hm : m < t.count + 1) :
    (g.newRoot t.root x t.count).place m = .carried j ↔
      (m < t.count ∧ g.place m = .carried j) ∧ m ≠ x := by
  by_cases hmc : m = t.count
  · rw [hmc, Plan.newRoot_place_self]
    simp
  · rw [Plan.newRoot_place (by omega)]
    by_cases hm1 : m = t.root ∨ m = x
    · rw [if_pos hm1]
      simp only [reduceCtorEq, false_iff, not_and, not_not]
      rintro ⟨_, hc⟩
      rcases hm1 with rfl | rfl
      · rw [(h.place_root _ h.root_lt).mpr rfl] at hc
        exact absurd hc (by simp)
      · rfl
    · rw [if_neg hm1]
      rw [not_or] at hm1
      exact ⟨fun hc => ⟨⟨by omega, hc⟩, hm1.2⟩, fun hc => hc.1.2⟩

theorem Layout.newRoot (h : Layout exact c t g) (hb : Bears t g i (some x))
    (hx : exact → g.level x = g.level t.root) {s : Nat} (hr : IsNewRoot t t' t.root x s)
    (hheight : t'.height = t.height + 1) :
    Layout exact c t' (g.newRoot t.root x t.count) := by
  have hrc := h.root_lt
  have hxc := hb.lt_count x rfl
  have hold : ∀ m < t.count, t'.node m = t.node m := fun m hm => hr.frame m hm.ne
  constructor
  · rw [hr.root, hr.count]
    omega
  · intro he
    rw [hr.root, Plan.newRoot_level_self, ← h.height he]
    exact hheight
  · intro m hm
    rw [hr.count] at hm
    by_cases hmc : m = t.count
    · rw [hmc, hr.isLeaf, Plan.newRoot_level_self]
      simp
    · rw [hold m (by omega), Plan.newRoot_level (by omega)]
      exact h.leaf_iff m (by omega)
  · intro m hm
    rw [hr.count] at hm
    rw [hr.root, Plan.newRoot_level_self]
    by_cases hmc : m = t.count
    · rw [hmc, Plan.newRoot_level_self]
    · rw [Plan.newRoot_level (by omega)]
      exact Nat.le_succ_of_le (h.level_le m (by omega))
  · intro m hm r hright
    rw [hr.count] at hm ⊢
    by_cases hmc : m = t.count
    · rw [hmc, hr.rightSibling] at hright
      exact absurd hright (by simp)
    · rw [hold m (by omega)] at hright
      have hright := h.right m (by omega) r hright
      rw [Plan.newRoot_level hright.1, Plan.newRoot_level (by omega)]
      exact ⟨by omega, hright.2⟩
  · intro m hm hml
    rw [hr.count] at hm
    by_cases hmc : m = t.count
    · have := c.two_le_maxKeys
      rw [hmc, hr.size]
      omega
    · rw [hold m (by omega)] at hml ⊢
      exact h.size_le m (by omega) hml
  · intro m hm y hy
    rw [hr.count] at hm ⊢
    by_cases hmc : m = t.count
    · rw [hmc, hr.children] at hy
      rw [hmc, Plan.newRoot_level_self]
      rcases List.mem_cons.mp hy with rfl | hy
      · refine ⟨t.root, rfl, by omega, ?_⟩
        rw [Plan.newRoot_level hrc]
        exact ⟨Nat.lt_succ_self _, fun _ => rfl⟩
      · have hle := h.level_le x hxc
        refine ⟨x, List.mem_singleton.mp hy, by omega, ?_⟩
        rw [Plan.newRoot_level hxc]
        exact ⟨by omega, fun he => by rw [hx he]⟩
    · rw [hold m (by omega)] at hy
      rcases h.child m (by omega) y hy with ⟨z, rfl, hz, hover⟩
      refine ⟨z, rfl, by omega, ?_⟩
      rw [Plan.newRoot_level (by omega), Plan.newRoot_level hz]
      exact hover
  · intro m hm
    rw [hr.count] at hm
    rw [hr.root]
    by_cases hmc : m = t.count
    · rw [hmc, Plan.newRoot_place_self]
      simp
    · rw [Plan.newRoot_place (by omega)]
      simp only [hmc, iff_false]
      split
      · simp
      next hm2 =>
        rw [h.place_root m (by omega)]
        exact fun hc => hm2 (Or.inl hc)
  · intro m hm p hp
    rw [hr.count] at hm ⊢
    by_cases hmc : m = t.count
    · rw [hmc, Plan.newRoot_place_self] at hp
      exact absurd hp (by simp)
    · rw [Plan.newRoot_place (by omega)] at hp
      split at hp
      · rw [Place.child.injEq] at hp
        omega
      · exact Nat.lt_succ_of_lt (h.place_child m (by omega) p hp)
  · rw [hr.count]
    exact fun p hp m hm => h.count_newRoot hb hr hp hm

/-- `create_new_root` on the root with the separator that the thread carries. -/
theorem Layout.createNewRoot (h : Layout exact c t g) (hb : Bears t g i (some x))
    (hx : exact → g.level x = g.level t.root) (s : Nat) :
    Hands exact c i t g (t.createNewRoot t.root x s) 0 none := by
  have hr := createNewRoot_isNewRoot t t.root x s
  refine ⟨_, h.newRoot hb hx hr rfl, ⟨?_, fun _ => Plan.newRoot_level, ?_⟩,
    ⟨fun _ hy => absurd hy (by simp), ?_⟩, fun _ hy => absurd hy (by simp)⟩
  · rw [hr.count]
    omega
  · intro j hj m hm
    rw [hr.count] at hm
    rw [h.carried_newRoot j hm]
    refine ⟨fun hc => hc.1, fun hc => ⟨hc, ?_⟩⟩
    rintro rfl
    have hxp : g.place m = .carried i := (hb.place_iff m hc.1).mpr rfl
    rw [hc.2, Place.carried.injEq] at hxp
    exact hj hxp
  · intro m hm
    rw [hr.count] at hm
    rw [h.carried_newRoot i hm]
    simp only [reduceCtorEq, iff_false, not_and, not_not]
    rintro ⟨hmc, hc⟩
    exact (Option.some.inj ((hb.place_iff m hmc).mp hc)).symm

end BLinkTree

import BLinkTree.Structure
import Mathlib.Data.List.ReduceOption
import Mathlib.Logic.Relation

/-! # The shape of a tree

What the strict invariant says about the tree alone: rows of nodes by depth, bounds of
the subtrees, sibling links and parents.
-/

namespace BLinkTree

/-- The nodes at depth `d`, from left to right. -/
def Tree.row (t : Tree) : Nat → List Nat
  | 0 => [t.root]
  | d + 1 => (t.row d).flatMap fun n => (t.node n).children.reduceOption

/-- Node `m` is `n` or below it. -/
def Tree.Under (t : Tree) : Nat → Nat → Prop :=
  Relation.ReflTransGen fun n m => some m ∈ (t.node n).children

/-- The lower bound of separator `j` of node `n`. -/
def Tree.lower (t : Tree) (n : Nat) : Nat → Nat
  | 0 => t.lowKey n
  | j + 1 => (t.node n).keys j

/-- The upper bound of separator `j` of node `n`. -/
def Tree.upper (t : Tree) (n j : Nat) : Nat :=
  if j < (t.node n).size then (t.node n).keys j else (t.node n).highKey

/-- A B-link tree in which no split is under way. -/
structure Structured (c : Capacity) (t : Tree) : Prop where
  wellFormed : ∀ n < t.count, (t.node n).WellFormed c
  bounds : ∀ n < t.count, (t.node n).isLeaf = false → ∀ j ≤ (t.node n).size,
    ∃ y, (t.node n).separators j = some y ∧ (t.node y).highKey = t.upper n j ∧
      ∀ m, t.Under y m → ∀ k ∈ (t.node m).liveKeys, t.lower n j ≤ k ∧ k < t.upper n j
  leaf_iff : ∀ d, ∀ n ∈ t.row d, (t.node n).isLeaf = true ↔ d + 1 = t.height
  mem_row : ∀ n, n < t.count ↔ ∃ d, n ∈ t.row d
  row_unique : ∀ d d' n, n ∈ t.row d → n ∈ t.row d' → d = d'
  row_nodup : ∀ d, (t.row d).Nodup
  row_linked : ∀ d, Linked t (t.row d)
  highKey_iff : ∀ n < t.count, (t.node n).highKey = maxKey ↔ (t.node n).rightSibling = none
  parent_root : t.parent t.root = none
  parent : ∀ n < t.count, n ≠ t.root → ∃ p < t.count, t.parent n = some p ∧
    ∀ q < t.count, some n ∈ (t.node q).children ↔ q = p

variable {ι : Type} {c : Capacity} {t : Tree} {g : Ghost ι} {n l : Nat}

/-! ## Rows -/

theorem slots_snd (hl : (t.node n).isLeaf = false) :
    (t.slots g n).map Prod.snd = (t.node n).children := by
  rw [Node.children_of_inner hl]
  rfl

theorem starts_snd (g : Ghost ι) (l : List Nat) :
    ((g.starts l).map Prod.snd).reduceOption = l := by
  simp [Ghost.starts, List.reduceOption]

/-- The children of a level are the next lower level. -/
theorem Strict.chain_children (h : Strict c t g none) (hl : l < g.level t.root) :
    (g.chain (l + 1)).flatMap (fun n => (t.node n).children.reduceOption) = g.chain l := by
  have hrow := h.tiled l hl.le
  have hchildren : ∀ n ∈ g.chain (l + 1), (t.node n).children.reduceOption =
      ((t.slots g n).map Prod.snd).reduceOption := by
    intro n hn
    rcases (h.inv.chain.mem _ n).mp hn with ⟨hnc, hlv⟩
    rw [slots_snd ((h.inv.node n hnc).inner_of_level_pos (by omega))]
  rw [List.flatMap_congr hchildren]
  calc (g.chain (l + 1)).flatMap (fun n => ((t.slots g n).map Prod.snd).reduceOption)
      = ((t.above g l).map Prod.snd).reduceOption := by
        rw [above_of_lt hl, List.map_flatMap, List.reduceOption, List.filterMap_flatMap]
    _ = ((g.starts (g.chain l)).map Prod.snd).reduceOption := by
        rw [hrow]
        rfl
    _ = g.chain l := starts_snd g _

theorem Strict.row_eq (h : Strict c t g none) {d : Nat} (hd : d ≤ g.level t.root) :
    t.row d = g.chain (g.level t.root - d) := by
  induction d with
  | zero =>
      have htop := h.tiled (g.level t.root) le_rfl
      have habove : t.above g (g.level t.root) = [(0, some t.root)] := if_pos rfl
      have hsnd := starts_snd g (g.chain (g.level t.root))
      rw [htop, habove] at hsnd
      exact hsnd
  | succ d ih =>
      have hlv : g.level t.root - d = g.level t.root - (d + 1) + 1 := by omega
      rw [Tree.row, ih (by omega), hlv]
      exact h.chain_children (by omega)

theorem Strict.row_eq_nil (h : Strict c t g none) {d : Nat} (hd : g.level t.root < d) :
    t.row d = [] := by
  obtain ⟨e, rfl⟩ : ∃ e, d = g.level t.root + 1 + e := ⟨d - (g.level t.root + 1), by omega⟩
  induction e with
  | zero =>
      show (t.row (g.level t.root)).flatMap _ = []
      rw [h.row_eq le_rfl, Nat.sub_self]
      refine List.flatMap_eq_nil_iff.mpr fun n hn => ?_
      rcases (h.inv.chain.mem _ n).mp hn with ⟨hnc, hlv⟩
      have hleaf := (h.inv.node n hnc).leaf_iff.mpr hlv
      simp [Node.children, hleaf, List.reduceOption]
  | succ e ih =>
      show (t.row (g.level t.root + 1 + e)).flatMap _ = []
      rw [ih (by omega)]
      rfl

/-- A node is below the root exactly when it is on one of the levels. -/
theorem under_root_iff : t.Under t.root n ↔ ∃ d, n ∈ t.row d := by
  constructor
  · intro h
    induction h with
    | refl => exact ⟨0, List.mem_singleton.mpr rfl⟩
    | tail _ hchild ih =>
        rcases ih with ⟨d, hd⟩
        exact ⟨d + 1, List.mem_flatMap.mpr ⟨_, hd, List.reduceOption_mem_iff.mpr hchild⟩⟩
  · rintro ⟨d, hd⟩
    induction d generalizing n with
    | zero =>
        rw [List.mem_singleton.mp hd]
        exact .refl
    | succ d ih =>
        rcases List.mem_flatMap.mp hd with ⟨m, hm, hchild⟩
        exact (ih hm).tail (List.reduceOption_mem_iff.mp hchild)

theorem Strict.mem_row_iff (h : Strict c t g none) {d : Nat} :
    n ∈ t.row d ↔ n < t.count ∧ d + g.level n = g.level t.root := by
  by_cases hd : d ≤ g.level t.root
  · rw [h.row_eq hd, h.inv.chain.mem]
    omega
  · rw [h.row_eq_nil (by omega)]
    simp only [List.not_mem_nil, false_iff, not_and]
    omega

/-! ## Bounds -/

/-- The high key of a node is the lower bound of the next entry of its level. -/
theorem Inv.highKey_of_starts (h : Inv c t g) {pre post : List (Nat × Option Nat)} {k y : Nat}
    (he : g.starts (g.chain l) = pre ++ (k, some y) :: post) :
    (t.node y).highKey = (post.head?.map Prod.fst).getD maxKey := by
  rcases List.map_eq_append_iff.mp he with ⟨a, b, hab, _, hb⟩
  rcases List.map_eq_cons_iff.mp hb with ⟨y', rest, rfl, hy, hrest⟩
  obtain rfl : y' = y := Option.some.inj (Prod.mk.inj hy).2
  have hlink := h.chain.linked l
  have hyc : y' < t.count := ((h.chain.mem l y').mp (by rw [hab]; simp)).1
  rw [hab] at hlink
  have hright := hlink.suffix.1
  cases rest with
  | nil =>
      have hpost : post = [] := hrest.symm
      rw [(h.node y' hyc).right_none hright, hpost]
      rfl
  | cons r rest =>
      rw [← ((h.node y' hyc).right_some r hright).2.2.2, ← hrest]
      rfl

theorem slots_getElem? (h : Inv c t g) (hn : n < t.count) (hl : (t.node n).isLeaf = false)
    {j : Nat} (hj : j ≤ (t.node n).size) :
    (t.slots g n)[j]? = some (t.lower n j, (t.node n).separators j) := by
  cases j with
  | zero =>
      have hfirst : (t.node n).first = (t.node n).separators 0 := by simp [Node.first, hl]
      simp [Tree.slots, Tree.lower, h.lowKey_eq hn, hfirst]
  | succ j =>
      simp only [Tree.slots, List.getElem?_cons_succ, Node.seps_of_inner hl, Slots.getElem?_pairs,
        if_pos (show j < (t.node n).size by omega), Tree.lower]

theorem length_slots (hl : (t.node n).isLeaf = false) :
    (t.slots g n).length = (t.node n).size + 1 := by
  rw [Tree.slots, List.length_cons, Node.length_seps hl]

/-- Separator `j` starts at its lower bound and ends at its upper bound. -/
theorem Strict.separator_spec (h : Strict c t g none) (hn : n < t.count)
    (hl : (t.node n).isLeaf = false) {j : Nat} (hj : j ≤ (t.node n).size) :
    ∃ y, (t.node n).separators j = some y ∧ y < t.count ∧ g.low y = t.lower n j ∧
      (t.node y).highKey = t.upper n j := by
  have hinv := h.inv
  have hget := slots_getElem? hinv hn hl hj
  rcases h.tiled.mem_slots hinv hn hl (List.mem_of_getElem? hget) with ⟨y, heq, hyc, hlv⟩
  rcases Prod.mk.inj heq with ⟨hlow, hsep⟩
  refine ⟨y, hsep, hyc, hlow.symm, ?_⟩
  have hle := (hinv.node n hn).level_le
  rcases hinv.chain.around hn with ⟨pre, post, hc, _, _⟩
  -- the level of `y`, cut at separator `j` of `n`
  have hrow : g.starts (g.chain (g.level y)) =
      (pre.flatMap (t.slots g) ++ (t.slots g n).take j) ++ (t.lower n j, some y) ::
        ((t.slots g n).drop (j + 1) ++ post.flatMap (t.slots g)) := by
    have htile := h.tiled (g.level y) (by omega)
    rw [above_of_lt (by omega), hlv, hc, List.flatMap_append, List.flatMap_cons] at htile
    rw [htile, Ghost.posted]
    rw [hsep] at hget
    conv_lhs => rw [← List.take_append_drop j (t.slots g n), List.drop_eq_getElem?_toList_append,
      hget]
    simp
  -- the level of `n`, cut at `n`
  have hself : g.starts (g.chain (g.level n)) =
      g.starts pre ++ (g.low n, some n) :: g.starts post := by
    rw [hc]
    simp [Ghost.starts]
  rw [hinv.highKey_of_starts hrow, Tree.upper]
  split
  next hlt =>
    have hnext := slots_getElem? hinv hn hl (j := j + 1) hlt
    have hhead : ((t.slots g n).drop (j + 1)).head? =
        some (t.lower n (j + 1), (t.node n).separators (j + 1)) := by
      rw [List.head?_drop]
      exact hnext
    rw [List.head?_append, hhead]
    rfl
  next hge =>
    have hnil : (t.slots g n).drop (j + 1) = [] := by
      rw [List.drop_eq_nil_iff, length_slots hl]
      omega
    rw [hinv.highKey_of_starts hself, hnil, List.nil_append]
    cases post with
    | nil => rfl
    | cons p post => rfl

theorem Strict.child_range (h : Strict c t g none) (hn : n < t.count)
    (hl : (t.node n).isLeaf = false) {y : Nat} (hy : some y ∈ (t.node n).children) :
    y < t.count ∧ g.low n ≤ g.low y ∧ (t.node y).highKey ≤ (t.node n).highKey := by
  rcases h.tiled.children_spec h.inv hn hl hy with ⟨hyc, _, hlow, _⟩
  refine ⟨hyc, hlow, ?_⟩
  rcases Node.mem_children.mp hy with ⟨_, j, hj, hsep⟩
  rcases h.separator_spec hn hl hj with ⟨y', hsep', _, _, hhigh⟩
  obtain rfl : y = y' := Option.some.inj (hsep.symm.trans hsep')
  rw [hhigh, Tree.upper]
  split
  next hlt =>
    have hnext := slots_getElem? h.inv hn hl (j := j + 1) hlt
    exact (h.tiled.slots_range h.inv hn hl (List.mem_of_getElem? hnext)).2.le
  next hge => exact le_rfl

/-- The ranges below a node are inside its range. -/
theorem Strict.under_range (h : Strict c t g none) {y m : Nat} (hy : y < t.count)
    (hm : t.Under y m) :
    m < t.count ∧ g.low y ≤ g.low m ∧ (t.node m).highKey ≤ (t.node y).highKey := by
  induction hm with
  | refl => exact ⟨hy, le_rfl, le_rfl⟩
  | tail _ hchild ih =>
      rcases ih with ⟨h1, h2, h3⟩
      rcases h.child_range h1 (Node.mem_children.mp hchild).1 hchild with ⟨k1, k2, k3⟩
      exact ⟨k1, by omega, by omega⟩

theorem Strict.liveKeys_range (h : Strict c t g none) (hn : n < t.count) {k : Nat}
    (hk : k ∈ (t.node n).liveKeys) : g.low n ≤ k ∧ k < (t.node n).highKey := by
  cases hl : (t.node n).isLeaf with
  | true =>
      rw [Node.liveKeys_of_leaf hl] at hk
      rcases List.mem_map.mp hk with ⟨e, he, rfl⟩
      exact ((h.inv.node n hn).leaf_range hl).2 e he
  | false =>
      rw [Node.liveKeys_of_inner hl] at hk
      rcases List.mem_map.mp hk with ⟨e, he, rfl⟩
      exact h.tiled.slots_range h.inv hn hl (List.mem_cons_of_mem _ he)

/-- Every node but the root is held by its parent and by no other node. -/
theorem Strict.parent_spec (h : Strict c t g none) (hn : n < t.count) (hne : n ≠ t.root) :
    ∃ p < t.count, t.parent n = some p ∧
      ∀ q < t.count, some n ∈ (t.node q).children ↔ q = p := by
  have hle := (h.inv.node n hn).level_le
  have hrow : n ∈ t.row (g.level t.root - g.level n) := h.mem_row_iff.mpr ⟨hn, by omega⟩
  cases hd : g.level t.root - g.level n with
  | zero =>
      rw [hd] at hrow
      exact absurd (List.mem_singleton.mp hrow) hne
  | succ d =>
      rw [hd] at hrow
      rcases List.mem_flatMap.mp hrow with ⟨p, hp, hchild⟩
      have hpc := (h.mem_row_iff.mp hp).1
      have hmem := List.reduceOption_mem_iff.mp hchild
      have hpl := (Node.mem_children.mp hmem).1
      refine ⟨p, hpc, h.parent_child p hpc hpl n hmem, fun q hq => ⟨fun hqn => ?_, ?_⟩⟩
      · exact h.tiled.eq_of_child h.inv hq hpc (Node.mem_children.mp hqn).1 hpl hqn hmem
      · rintro rfl
        exact hmem

/-- Between two inserts the strict invariant is about the tree alone. -/
theorem Strict.structured (h : Strict c t g none) : Structured c t where
  wellFormed := fun n hn => (h.inv.node n hn).wellFormed
  bounds := by
    intro n hn hl j hj
    rcases h.separator_spec hn hl hj with ⟨y, hsep, hyc, hlow, hhigh⟩
    refine ⟨y, hsep, hhigh, fun m hm k hk => ?_⟩
    rcases h.under_range hyc hm with ⟨hmc, h1, h2⟩
    have hr := h.liveKeys_range hmc hk
    omega
  leaf_iff := by
    intro d n hn
    rcases h.mem_row_iff.mp hn with ⟨hnc, hlv⟩
    rw [(h.inv.node n hnc).leaf_iff, h.height]
    omega
  mem_row := by
    intro n
    constructor
    · intro hn
      have hle := (h.inv.node n hn).level_le
      exact ⟨g.level t.root - g.level n, h.mem_row_iff.mpr ⟨hn, by omega⟩⟩
    · rintro ⟨d, hd⟩
      exact (h.mem_row_iff.mp hd).1
  row_unique := by
    intro d d' n hd hd'
    have h1 := (h.mem_row_iff.mp hd).2
    have h2 := (h.mem_row_iff.mp hd').2
    omega
  row_nodup := by
    intro d
    by_cases hd : d ≤ g.level t.root
    · rw [h.row_eq hd]
      exact h.inv.chain.nodup _
    · rw [h.row_eq_nil (not_le.mp hd)]
      exact List.nodup_nil
  row_linked := by
    intro d
    by_cases hd : d ≤ g.level t.root
    · rw [h.row_eq hd]
      exact h.inv.chain.linked _
    · rw [h.row_eq_nil (not_le.mp hd)]
      trivial
  highKey_iff := by
    intro n hn
    constructor
    · intro hmax
      cases hr : (t.node n).rightSibling with
      | none => rfl
      | some r =>
          have := ((h.inv.node n hn).right_some r hr).1
          omega
    · exact (h.inv.node n hn).right_none
  parent_root := h.parent_root
  parent := fun n hn hne => h.parent_spec hn hne

end BLinkTree

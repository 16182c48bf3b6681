import BLinkTree.ConsistencyChecker
import BLinkTree.Keys
import BLinkTree.Occupancy
import Mathlib.Data.List.Dedup

/-! # The diagnostics of a sequential tree

`Tree::print_statistics` with the counters of `TreeStatistics`, and what the iterator, the
checker and the counters say about a tree that inserts have built one after the other.
-/

namespace BLinkTree

/-- The counters of `TreeStatistics`. -/
structure TreeStatistics where
  countInnerNodes : Nat
  countLeafNodes : Nat
  countInnerNodeKeys : Nat
  countLeafNodeKeys : Nat
  treeHeight : Nat

def TreeStatistics.create (t : Tree) : TreeStatistics := ⟨0, 0, 0, 0, t.height⟩

/-- `TreeStatistics::collect_node_statistics`. -/
def TreeStatistics.collectNodeStatistics (s : TreeStatistics) (n : Node) : TreeStatistics :=
  { s with
    countInnerNodes := s.countInnerNodes + (!n.isLeaf).toNat
    countLeafNodes := s.countLeafNodes + n.isLeaf.toNat
    countInnerNodeKeys := s.countInnerNodeKeys + (!n.isLeaf).toNat * n.size
    countLeafNodeKeys := s.countLeafNodeKeys + n.isLeaf.toNat * n.size }

/-- The statistics over the nodes of a list. -/
def Tree.collect (t : Tree) (nodes : List Nat) : TreeStatistics :=
  nodes.foldl (fun s n => s.collectNodeStatistics (t.node n)) (.create t)

/-- `Tree::print_statistics`. -/
def Tree.statistics (t : Tree) (fuel : Nat) : Option TreeStatistics :=
  (t.visited fuel t.begin).map t.collect

variable {c : Capacity} {t : Tree} {g : Ghost Nat} {n : Nat}

/-! ## Checks -/

theorem Node.WellFormed.keys_lt {n : Node} (h : n.WellFormed c) {i j : Nat} (hij : i < j)
    (hj : j < n.size) : n.keys i < n.keys j := by
  have hs := List.pairwise_iff_getElem.mp h.sorted i j (by simp [Node.liveKeys]; omega)
    (by simp [Node.liveKeys, hj]) hij
  simpa [Node.liveKeys] using hs

/-- The key that `key(size() - 1)` reads is a live one. -/
theorem Node.WellFormed.lastKey_mem {n : Node} (h : n.WellFormed c) (hs : 1 ≤ n.size) :
    n.lastKey ∈ n.liveKeys := by
  have hsize : n.size < 2 ^ 14 := lt_of_le_of_lt h.size_le (n.capacity_lt c)
  unfold Node.lastKey
  rw [Node.before_eq hs (by omega)]
  exact List.mem_map_of_mem (List.mem_range.mpr (by omega))

section Checked

variable (h : Strict c t g none) (hsize : ∀ n < t.count, 1 ≤ (t.node n).size) (hn : n < t.count)

include h in
theorem Strict.isLeaf_eq_of_level {m : Nat} (hn : n < t.count) (hm : m < t.count)
    (hlv : g.level n = g.level m) : (t.node n).isLeaf = (t.node m).isLeaf := by
  have h1 := (h.inv.node n hn).leaf_iff
  rw [hlv, ← (h.inv.node m hm).leaf_iff] at h1
  exact Bool.eq_iff_iff.mpr h1

include h hn in
theorem Strict.isLevelValid : t.isLevelValid n = some true := by
  rw [isLevelValid_iff]
  refine ⟨fun r hr => ?_, fun hl j hj => ?_⟩
  · rcases (h.inv.node n hn).right_some r hr with ⟨_, hrc, hlv, _⟩
    exact h.isLeaf_eq_of_level hn hrc hlv.symm
  · rcases h.separator_spec hn hl hj.le with ⟨a, ha, hac, _⟩
    rcases h.separator_spec hn hl (show j + 1 ≤ _ from hj) with ⟨b, hb, hbc, _⟩
    have hla := (h.tiled.children_spec h.inv hn hl
      (Node.mem_children.mpr ⟨hl, j, hj.le, ha⟩)).2.1
    have hlb := (h.tiled.children_spec h.inv hn hl
      (Node.mem_children.mpr ⟨hl, j + 1, hj, hb⟩)).2.1
    exact ⟨a, b, ha, hb, h.isLeaf_eq_of_level hac hbc (by omega)⟩

include h hsize hn in
theorem Strict.lastKey_lt : (t.node n).lastKey < (t.node n).highKey :=
  (h.liveKeys_range hn ((h.inv.node n hn).wellFormed.lastKey_mem (hsize n hn))).2

include h hsize hn in
theorem Strict.checkAndPrintParent : t.checkAndPrintParent n = [] := by
  cases hp : t.parent n with
  | none =>
      unfold Tree.checkAndPrintParent
      rw [hp]
  | some p =>
      have hne : n ≠ t.root := by
        rintro rfl
        rw [h.parent_root] at hp
        exact absurd hp (by simp)
      rcases h.parent_spec hn hne with ⟨q, hq, hparent, hiff⟩
      obtain rfl : q = p := Option.some.inj (hparent.symm.trans hp)
      rcases Node.mem_children.mp ((hiff q hq).mpr rfl) with ⟨hl, j, hj, hs⟩
      have hexists : ∃ j ≤ (t.node q).size, (t.node q).separators j = some n := ⟨j, hj, hs⟩
      rw [checkAndPrintParent_eq_nil hp]
      refine ⟨Node.containsSeparator_iff.mpr hexists, ?_⟩
      -- wherever the loop finds the node, the node keeps the bounds of that separator
      have hwithin : ∃ j, 0 ≤ j ∧ j < 0 + ((t.node q).size + 1) ∧
          (t.node q).separators j = some n := ⟨j, Nat.zero_le j, by omega, hs⟩
      rcases Node.separatorIndex_spec hwithin with ⟨hle, hfound⟩
      obtain ⟨index, hindex⟩ : ∃ i, i = (t.node q).separatorIndex n ((t.node q).size + 1) 0 :=
        ⟨_, rfl⟩
      rw [← hindex] at hle hfound ⊢
      rcases h.separator_spec hq hl (show index ≤ _ by omega) with ⟨y, hy, _, hlow, hhigh⟩
      obtain rfl : n = y := Option.some.inj (hfound.symm.trans hy)
      refine ⟨fun hlt => ?_, fun hge => ?_⟩
      · have hlast := h.lastKey_lt hsize hn
        rw [hhigh, Tree.upper, if_pos hlt] at hlast
        exact hlast
      · have hpos := hsize q hq
        have hqsize := lt_of_le_of_lt (h.inv.node q hq).wellFormed.size_le
          ((t.node q).capacity_lt c)
        obtain ⟨i, rfl⟩ : ∃ i, index = i + 1 := ⟨index - 1, by omega⟩
        have hfirst := (h.liveKeys_range hn (Node.key_mem (hsize n hn))).1
        rw [hlow, Tree.lower] at hfirst
        rw [Node.before_eq (by omega) (by omega), Nat.add_sub_cancel]
        exact hfirst

include h hsize hn in
/-- Nothing is printed about a node of a sequential tree. -/
theorem Strict.checkNode : t.checkNodeAndPrintErrors n = some [] := by
  have hi := h.inv.node n hn
  rw [checkNode_eq_nil]
  refine ⟨decide_eq_true (h.lastKey_lt hsize hn), ?_, ?_, ?_, h.isLevelValid hn,
    h.checkAndPrintParent hsize hn⟩
  · rw [Node.isKeyOrderValid_iff]
    intro j hj
    exact hi.wellFormed.keys_lt (Nat.lt_succ_self j) hj
  · rw [Node.isNoNullSeparator_iff]
    intro hl j hj
    rcases h.separator_spec hn hl hj with ⟨y, hy, _⟩
    exact ⟨y, hy⟩
  · rw [isChildrenOrderValid_iff]
    intro hl j hj
    rcases h.separator_spec hn hl hj.le with ⟨y, hy, hyc, _, hhigh⟩
    have hlast := h.lastKey_lt hsize hyc
    rw [hhigh, Tree.upper, if_pos hj] at hlast
    exact ⟨y, hy, hlast⟩

end Checked

/-! ## Levels -/

/-- The nodes of the first `d` levels. -/
def Tree.upTo (t : Tree) (d : Nat) : List Nat := (List.range d).flatMap t.row

theorem upTo_succ (t : Tree) (d : Nat) : t.upTo (d + 1) = t.upTo d ++ t.row d := by
  unfold Tree.upTo
  rw [List.range_succ, List.flatMap_append, List.flatMap_singleton]

theorem mem_upTo {d : Nat} : n ∈ t.upTo d ↔ ∃ e < d, n ∈ t.row e := by
  unfold Tree.upTo
  rw [List.mem_flatMap]
  simp only [List.mem_range]

section Levels

variable (h : Strict c t g none)

include h in
theorem Strict.mem_upTo_height : n ∈ t.upTo t.height ↔ t.Under t.root n := by
  rw [under_root_iff, mem_upTo]
  constructor
  · rintro ⟨d, _, hd⟩
    exact ⟨d, hd⟩
  · rintro ⟨d, hd⟩
    have hlv := (h.mem_row_iff.mp hd).2
    have hheight := h.height
    exact ⟨d, by omega, hd⟩

include h in
theorem Strict.nodup_upTo (d : Nat) : (t.upTo d).Nodup := by
  refine List.nodup_flatMap.mpr ⟨fun e _ => h.structured.row_nodup e, ?_⟩
  refine List.nodup_range.imp fun {d e} hne n hd he => hne ?_
  exact h.structured.row_unique d e n hd he

include h in
theorem Strict.inner_of_row {d : Nat} (hn : n ∈ t.row d) (hd : d < g.level t.root) :
    n < t.count ∧ (t.node n).isLeaf = false := by
  rcases h.mem_row_iff.mp hn with ⟨hnc, hlv⟩
  exact ⟨hnc, (h.inv.node n hnc).inner_of_level_pos (by omega)⟩

include h in
/-- Every level has a first node. -/
theorem Strict.exists_row_head {d : Nat} (hd : d ≤ g.level t.root) :
    ∃ n l, t.row d = n :: l := by
  induction d with
  | zero => exact ⟨t.root, [], rfl⟩
  | succ d ih =>
      rcases ih (by omega) with ⟨n, l, hrow⟩
      rcases h.inner_of_row (hrow ▸ List.mem_cons_self ..) (by omega) with ⟨hnc, hl⟩
      rcases h.separator_spec hnc hl (Nat.zero_le _) with ⟨y, hy, _⟩
      rcases row_succ_eq_cons hrow hl hy with ⟨rest, hnext⟩
      exact ⟨y, rest, hnext⟩

include h in
theorem Strict.row_ne_nil_iff {d : Nat} : t.row d ≠ [] ↔ d < t.height := by
  rw [h.height]
  constructor
  · intro hne
    by_contra hd
    exact hne (h.row_eq_nil (by omega))
  · intro hd
    rcases h.exists_row_head (Nat.lt_succ_iff.mp hd) with ⟨n, l, hrow⟩
    rw [hrow]
    exact List.cons_ne_nil n l

include h in
/-- The iterator visits the levels one after the other. -/
theorem Strict.visited : ∃ fuel, t.visited fuel t.begin = some (t.upTo t.height) := by
  have hs := h.structured
  have hfirst : ∀ d, ∀ n ∈ t.row d, (t.node n).isLeaf = false →
      ∃ y, (t.node n).separators 0 = some y := by
    intro d n hn hl
    rcases h.separator_spec (h.mem_row_iff.mp hn).1 hl (Nat.zero_le _) with ⟨y, hy, _⟩
    exact ⟨y, hy⟩
  have hheight := h.height
  rcases visited_rows hs.row_linked hs.leaf_iff hfirst (g.level t.root) 0 (by omega) rfl with
    ⟨fuel, hrun⟩
  refine ⟨fuel, hrun.trans ?_⟩
  rw [Tree.upTo, List.range_eq_range', hheight]

include h in
theorem Strict.check (hsize : ∀ n < t.count, 1 ≤ (t.node n).size) :
    ∃ fuel, t.check fuel = some [] := by
  rcases h.visited with ⟨fuel, hrun⟩
  refine ⟨fuel, ?_⟩
  rw [Tree.check, hrun, Option.bind_some, checkNodes_eq_nil]
  intro n hn
  rcases mem_upTo.mp hn with ⟨d, _, hd⟩
  exact h.checkNode hsize (h.mem_row_iff.mp hd).1

/-! ## Counters -/

include h in
/-- The separators of the first levels are the nodes of these and the next level without the
root. -/
theorem Strict.sum_upTo {d : Nat} (hd : d ≤ g.level t.root) :
    ((t.upTo d).map fun n => (t.node n).size + 1).sum + 1 = (t.upTo (d + 1)).length := by
  induction d with
  | zero => rfl
  | succ d ih =>
      have hlen := h.length_chain (l := g.level t.root - (d + 1)) (by omega)
      rw [show g.level t.root - (d + 1) + 1 = g.level t.root - d by omega,
        ← h.row_eq hd, ← h.row_eq (by omega)] at hlen
      rw [upTo_succ, List.map_append, List.sum_append, upTo_succ t (d + 1), List.length_append,
        ← ih (by omega), hlen]
      omega

include h in
theorem Strict.length_content :
    t.content.length = ((t.row (g.level t.root)).map fun n => (t.node n).size).sum := by
  rw [h.row_eq le_rfl, Nat.sub_self, h.inv.content_eq, Tree.entriesOf, List.length_flatMap]
  congr 1
  apply List.map_congr_left
  intro n hn
  rcases (h.inv.chain.mem 0 n).mp hn with ⟨hnc, hlv⟩
  exact Node.length_entries ((h.inv.node n hnc).leaf_iff.mpr hlv)

end Levels

/-- The counters are sums over the inner nodes and over the leaves. -/
theorem foldl_collect (t : Tree) (nodes : List Nat) (s : TreeStatistics) :
    nodes.foldl (fun s n => s.collectNodeStatistics (t.node n)) s =
      { countInnerNodes := s.countInnerNodes + (nodes.filter fun n => !(t.node n).isLeaf).length
        countLeafNodes := s.countLeafNodes + (nodes.filter fun n => (t.node n).isLeaf).length
        countInnerNodeKeys := s.countInnerNodeKeys +
          ((nodes.filter fun n => !(t.node n).isLeaf).map fun n => (t.node n).size).sum
        countLeafNodeKeys := s.countLeafNodeKeys +
          ((nodes.filter fun n => (t.node n).isLeaf).map fun n => (t.node n).size).sum
        treeHeight := s.treeHeight } := by
  induction nodes generalizing s with
  | nil => rfl
  | cons n nodes ih =>
      rw [List.foldl_cons, ih]
      cases hl : (t.node n).isLeaf <;>
        simp [TreeStatistics.collectNodeStatistics, hl, Nat.add_assoc, Nat.add_comm]

/-- What the statistics of a tree say when the iterator visits `nodes` and `keys` is the
number of distinct keys: the nodes of each kind, the keys in the leaves, one key of an inner
node for every node but the root and the inner nodes themselves, and the number of levels. -/
structure Counted (t : Tree) (nodes : List Nat) (keys : Nat) (s : TreeStatistics) : Prop where
  innerNodes : s.countInnerNodes = (nodes.filter fun n => !(t.node n).isLeaf).length
  leafNodes : s.countLeafNodes = (nodes.filter fun n => (t.node n).isLeaf).length
  innerKeys : s.countInnerNodeKeys + s.countInnerNodes + 1 = nodes.length
  leafKeys : s.countLeafNodeKeys = keys
  height : ∀ d, t.row d ≠ [] ↔ d < s.treeHeight

theorem Strict.counted (h : Strict c t g none) :
    Counted t (t.upTo t.height) t.content.length (t.collect (t.upTo t.height)) := by
  have hinner : ∀ n ∈ t.upTo (g.level t.root), (t.node n).isLeaf = false := by
    intro n hn
    rcases mem_upTo.mp hn with ⟨d, hd, hmem⟩
    exact (h.inner_of_row hmem hd).2
  have hleaf : ∀ n ∈ t.row (g.level t.root), (t.node n).isLeaf = true := by
    intro n hn
    rcases h.mem_row_iff.mp hn with ⟨hnc, hlv⟩
    exact (h.inv.node n hnc).leaf_iff.mpr (by omega)
  have hparts : t.upTo t.height = t.upTo (g.level t.root) ++ t.row (g.level t.root) := by
    rw [h.height, upTo_succ]
  have hfilter : (t.upTo t.height).filter (fun n => !(t.node n).isLeaf) =
      t.upTo (g.level t.root) := by
    rw [hparts, List.filter_append, List.filter_eq_self.mpr fun n hn => by simp [hinner n hn],
      List.filter_eq_nil_iff.mpr fun n hn => by simp [hleaf n hn], List.append_nil]
  have hfilter' : (t.upTo t.height).filter (fun n => (t.node n).isLeaf) =
      t.row (g.level t.root) := by
    rw [hparts, List.filter_append, List.filter_eq_nil_iff.mpr fun n hn => by simp [hinner n hn],
      List.filter_eq_self.mpr fun n hn => by simp [hleaf n hn], List.nil_append]
  unfold Tree.collect
  rw [foldl_collect, hfilter, hfilter']
  refine ⟨?_, ?_, ?_, ?_, fun d => h.row_ne_nil_iff⟩
  · show 0 + _ = _
    rw [hfilter, Nat.zero_add]
  · show 0 + _ = _
    rw [hfilter', Nat.zero_add]
  · have hsum := h.sum_upTo le_rfl
    have hsplit : ∀ l : List Nat, (l.map fun n => (t.node n).size + 1).sum =
        (l.map fun n => (t.node n).size).sum + l.length := by
      intro l
      induction l with
      | nil => rfl
      | cons n l ih =>
          simp only [List.map_cons, List.sum_cons, List.length_cons, ih]
          omega
    rw [hsplit] at hsum
    rw [h.height, ← hsum]
    simp [TreeStatistics.create]
  · show 0 + _ = _
    rw [h.length_content, Nat.zero_add]

/-! ## Sequences of inserts -/

/-- The nodes of an occupied tree with a binding are not empty. -/
theorem Occupied.one_le_size (ho : Occupied c t) (h : Strict c t g none) (hne : t.content ≠ [])
    {n : Nat} (hn : n < t.count) : 1 ≤ (t.node n).size := by
  by_cases hroot : n = t.root
  · rw [hroot]
    cases hl : (t.node t.root).isLeaf with
    | false => exact ho.root hl
    | true =>
        have hlevel := (h.inv.node _ h.inv.root_lt).leaf_iff.mp hl
        have hlen := h.length_content
        rw [hlevel] at hlen
        have hpos := List.length_pos_iff.mpr hne
        have hrow : t.row 0 = [t.root] := rfl
        rw [hrow, List.map_singleton, List.sum_singleton] at hlen
        omega
  · exact (ho.halfFull n hn hroot).one_le

/-- What the iterator, the checker and the statistics say about a tree that holds the keys of
the entries. -/
structure Diagnosed (t : Tree) (entries : List (Nat × Value)) (fuel : Nat) (nodes : List Nat)
    (s : TreeStatistics) : Prop where
  visited : t.visited fuel t.begin = some nodes
  levels : nodes = (List.range t.height).flatMap t.row
  nodup : nodes.Nodup
  reachable : ∀ n, n ∈ nodes ↔ t.Under t.root n
  check : t.check fuel = some []
  statistics : t.statistics fuel = some s
  counted : Counted t nodes (entries.map Prod.fst).dedup.length s

/-- The number of bindings is the number of distinct keys. -/
theorem Strict.length_content_eq (h : Strict c t g none) {keys : List Nat}
    (hkeys : ∀ k, k ∈ t.content.map Prod.fst ↔ k ∈ keys) :
    t.content.length = keys.dedup.length := by
  have hperm : (t.content.map Prod.fst).Perm keys.dedup :=
    (List.perm_ext_iff_of_nodup h.inv.content_keys_nodup keys.nodup_dedup).mpr fun k => by
      rw [hkeys k, List.mem_dedup]
  rw [← hperm.length_eq, List.length_map]

theorem Strict.diagnosed (h : Strict c t g none) (ho : Occupied c t)
    {entries : List (Nat × Value)} (hne : entries ≠ [])
    (hkeys : ∀ k, k ∈ t.content.map Prod.fst ↔ k ∈ entries.map Prod.fst) :
    ∃ fuel nodes s, Diagnosed t entries fuel nodes s := by
  have hcontent : t.content ≠ [] := by
    rcases List.exists_mem_of_ne_nil _ hne with ⟨e, he⟩
    have hmem := (hkeys e.1).mpr (List.mem_map_of_mem he)
    intro hnil
    rw [hnil] at hmem
    exact absurd hmem (by simp)
  rcases h.visited with ⟨fuel, hrun⟩
  rcases h.check (fun n hn => ho.one_le_size h hcontent hn) with ⟨fuel', hcheck⟩
  have hmax := visited_mono (le_max_left fuel fuel') hrun
  have hcounted := h.counted
  rw [h.length_content_eq hkeys] at hcounted
  refine ⟨max fuel fuel', t.upTo t.height, t.collect (t.upTo t.height), hmax, rfl,
    h.nodup_upTo _, fun n => h.mem_upTo_height, ?_, ?_, hcounted⟩
  · rcases Option.bind_eq_some_iff.mp hcheck with ⟨nodes, hnodes, hprint⟩
    exact Option.bind_eq_some_iff.mpr
      ⟨nodes, visited_mono (le_max_right fuel fuel') hnodes, hprint⟩
  · rw [Tree.statistics, hmax]
    rfl

section Inserts

variable {σ : Type} {I : Implementation σ} {J : σ → Prop} {s : σ}

/-- Inserts one after the other leave a tree with the inserted keys in half full nodes. -/
theorem Implementation.Follows.inserted (hI : I.Follows c J) (hs : J s)
    (ho : Occupied c (I.tree s)) {entries : List (Nat × Value)}
    (hk : ∀ e ∈ entries, e.1 < maxKey) :
    ∃ fuel s', after I.call fuel s (entries.map fun e => .insert e.1 e.2) = some s' ∧ J s' ∧
      Occupied c (I.tree s') ∧ ∀ k, k ∈ (I.tree s').content.map Prod.fst ↔
        k ∈ (I.tree s).content.map Prod.fst ∨ k ∈ entries.map Prod.fst := by
  induction entries generalizing s with
  | nil => exact ⟨0, s, rfl, hs, ho, by simp⟩
  | cons e entries ih =>
      have hlt := hk e (List.mem_cons_self ..)
      rcases hI.strict s hs with ⟨g, hstrict⟩
      rcases hstrict.serial (.insert e.1 e.2) hlt with ⟨t', r, g', hserial, hstrict'⟩
      rcases hI.call s _ t' r hs hserial ⟨g', hstrict'⟩ with ⟨f₁, s₁, hcall, rfl, hs₁⟩
      have hcontent := (hstrict.serial_content (o := .insert e.1 e.2) hlt hserial).1
      rcases ih hs₁ (hserial.occupied ho) (fun b hb => hk b (List.mem_cons_of_mem _ hb)) with
        ⟨f₂, s', hafter, hs', ho', hkeys⟩
      refine ⟨max f₁ f₂, s', after_cons hI.mono hcall hafter, hs', ho', fun k => ?_⟩
      have hstep : k ∈ (I.tree s₁).content.map Prod.fst ↔
          k ∈ (I.tree s).content.map Prod.fst ∨ k = e.1 := by
        rw [hcontent]
        show k ∈ (OrderedMap.insertIfAbsent e.1 e.2 _).map Prod.fst ↔ _
        by_cases hmem : e.1 ∈ (I.tree s).content.map Prod.fst
        · rw [OrderedMap.insertIfAbsent, if_pos hmem]
          constructor
          · exact Or.inl
          · rintro (hk' | rfl)
            · exact hk'
            · exact hmem
        · rw [OrderedMap.insertIfAbsent, if_neg hmem]
          simp only [List.mem_map, OrderedMap.mem_insertNew]
          constructor
          · rintro ⟨b, rfl | hb, rfl⟩
            · exact Or.inr rfl
            · exact Or.inl ⟨b, hb, rfl⟩
          · rintro (⟨b, hb, rfl⟩ | rfl)
            · exact ⟨b, Or.inr hb, rfl⟩
            · exact ⟨_, Or.inl rfl, rfl⟩
      rw [hkeys k, hstep, List.map_cons, List.mem_cons, or_assoc]

theorem Implementation.Follows.diagnosed (hI : I.Follows c J) (hs : J s)
    (ho : Occupied c (I.tree s)) (hempty : (I.tree s).content = [])
    {entries : List (Nat × Value)} (hne : entries ≠ []) (hk : ∀ e ∈ entries, e.1 < maxKey) :
    ∃ fuel s', (∀ fuel' ≥ fuel,
        after I.call fuel' s (entries.map fun e => .insert e.1 e.2) = some s') ∧
      ∃ fuel nodes statistics, Diagnosed (I.tree s') entries fuel nodes statistics := by
  rcases hI.inserted hs ho hk with ⟨fuel, s', hafter, hs', ho', hkeys⟩
  rcases hI.strict s' hs' with ⟨g, hstrict⟩
  refine ⟨fuel, s', fun fuel' hf => after_mono hI.mono hf hafter,
    hstrict.diagnosed ho' hne fun k => ?_⟩
  rw [hkeys k, hempty]
  simp

end Inserts

/-- In each implementation, behind every sequence of inserts that is not empty, the iterator
ends and visits every node once, level by level from left to right; the checker prints
nothing; and the statistics are right. -/
theorem diagnostics_exact (c : Capacity) (memory₁ memory₂ memory₃ : Nat → Memory)
    (entries : List (Nat × Value)) (hne : entries ≠ []) (hk : ∀ e ∈ entries, e.1 < maxKey) :
    (∃ fuel t, (∀ fuel' ≥ fuel, after (Latched.call c) fuel' (Tree.empty memory₁)
          (entries.map fun e => .insert e.1 e.2) = some t) ∧
        ∃ fuel nodes s, Diagnosed t entries fuel nodes s) ∧
      (∃ fuel v, (∀ fuel' ≥ fuel, after (Optimistic.call c) fuel' (VersionedTree.empty memory₂)
          (entries.map fun e => .insert e.1 e.2) = some v) ∧
        ∃ fuel nodes s, Diagnosed v.tree entries fuel nodes s) ∧
      ∃ fuel t, (∀ fuel' ≥ fuel, after (Tbb.call c) fuel' (Tree.empty memory₃)
          (entries.map fun e => .insert e.1 e.2) = some t) ∧
        ∃ fuel nodes s, Diagnosed t entries fuel nodes s := by
  have hstep := inStep_empty c memory₁ memory₂ memory₃
  have hstrict₂ : ∃ g : Ghost Nat, Strict c (VersionedTree.empty memory₂).tree g none :=
    ⟨_, strict_empty c memory₂⟩
  have hstrict₃ : ∃ g : Ghost Nat, Strict c (Tree.empty memory₃) g none :=
    ⟨_, strict_empty c memory₃⟩
  refine ⟨?_, ?_, ?_⟩
  · exact (Latched.follows c).diagnosed hstep.strict (occupied_empty c memory₁)
      (content_empty memory₁) hne hk
  · exact (Optimistic.follows c).diagnosed ⟨hstrict₂, hstep.free⟩ (occupied_empty c memory₂)
      (content_empty memory₂) hne hk
  · exact (Tbb.follows c).diagnosed hstrict₃ (occupied_empty c memory₃)
      (content_empty memory₃) hne hk

/-- Four inserts, three keys, two levels. -/
theorem diagnostics_exact_two_levels :
    (∃ fuel t, (∀ fuel' ≥ fuel, after (Latched.call .smallest) fuel' (Tree.empty fun _ => .zero)
          ([(5, 50), (3, 30), (9, 90), (3, 31)].map fun e => .insert e.1 e.2) = some t) ∧
        ∃ fuel nodes s, Diagnosed t [(5, 50), (3, 30), (9, 90), (3, 31)] fuel nodes s) ∧
      (∃ fuel v, (∀ fuel' ≥ fuel,
          after (Optimistic.call .smallest) fuel' (VersionedTree.empty fun _ => .zero)
            ([(5, 50), (3, 30), (9, 90), (3, 31)].map fun e => .insert e.1 e.2) = some v) ∧
        ∃ fuel nodes s, Diagnosed v.tree [(5, 50), (3, 30), (9, 90), (3, 31)] fuel nodes s) ∧
      ∃ fuel t, (∀ fuel' ≥ fuel, after (Tbb.call .smallest) fuel' (Tree.empty fun _ => .zero)
          ([(5, 50), (3, 30), (9, 90), (3, 31)].map fun e => .insert e.1 e.2) = some t) ∧
        ∃ fuel nodes s, Diagnosed t [(5, 50), (3, 30), (9, 90), (3, 31)] fuel nodes s :=
  diagnostics_exact .smallest (fun _ => .zero) (fun _ => .zero) (fun _ => .zero)
    [(5, 50), (3, 30), (9, 90), (3, 31)] (by decide) (by decide)

end BLinkTree

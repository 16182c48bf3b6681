import BLinkTree.Serial
import Mathlib.Algebra.Group.Action.Defs
import Mathlib.Algebra.Order.BigOperators.Group.List
import Mathlib.Tactic.Ring

/-! # How full the nodes are

Both splits leave two nodes that are at least half full, and nothing takes an entry out
of a node. So the levels grow exponentially with the distance from the root, and the
number of bindings bounds the number of levels.
-/

namespace BLinkTree

variable {c : Capacity} {t t' : Tree} {g : Ghost Nat} {k l m n : Nat} {path : List Nat}

def Node.HalfFull (c : Capacity) (n : Node) : Prop := n.capacity c / 2 ≤ n.size

/-- Every node but the root is half full, and an inner root has a key. -/
structure Occupied (c : Capacity) (t : Tree) : Prop where
  root_lt : t.root < t.count
  halfFull : ∀ n < t.count, n ≠ t.root → (t.node n).HalfFull c
  root : (t.node t.root).isLeaf = false → 1 ≤ (t.node t.root).size

theorem occupied_empty (c : Capacity) (memory : Nat → Memory) : Occupied c (Tree.empty memory) where
  root_lt := Nat.one_pos
  halfFull := fun _ hn hne => absurd (Nat.lt_one_iff.mp hn) hne
  root := fun hl => absurd hl (by simp [Tree.empty, Node.create])

/-! ## The two splits -/

namespace Node

theorem HalfFull.one_le {n : Node} (h : n.HalfFull c) : 1 ≤ n.size := by
  have h1 := c.two_le_maxKeys
  have h2 := c.two_le_maxItems
  unfold HalfFull capacity at h
  split at h <;> omega

theorem HalfFull.grow {n n' : Node} (h : n.HalfFull c) (hl : n'.isLeaf = n.isLeaf)
    (hs : n.size ≤ n'.size) : n'.HalfFull c := by
  unfold HalfFull capacity at *
  rw [hl]
  omega

theorem splitLeaf_halfFull {leaf new : Node} (key : Nat) (value : Value)
    (hl : leaf.isLeaf = true) (hnew : new.isLeaf = true) :
    (leaf.splitLeaf c new key value).1.HalfFull c ∧
      (leaf.splitLeaf c new key value).2.HalfFull c := by
  have hshape := splitLeaf_shape (c := c) key value hl hnew
  unfold HalfFull capacity
  rw [if_pos hshape.left_isLeaf, if_pos hshape.new_isLeaf, splitLeaf_eq]
  dsimp only
  split
  · refine ⟨?_, ?_⟩
    · show c.maxItems / 2 ≤ c.maxItems / 2 + 1
      omega
    · show c.maxItems / 2 ≤ c.maxItems - c.maxItems / 2
      omega
  · refine ⟨le_rfl, ?_⟩
    show c.maxItems / 2 ≤ c.maxItems - c.maxItems / 2 + 1
    omega

/-- No property of the node that is split is needed. -/
theorem splitInner_halfFull {inner new : Node} (key separator : Nat)
    (hi : inner.isLeaf = false) (hnew : new.isLeaf = false) :
    (inner.splitInner c new key separator).1.HalfFull c ∧
      (inner.splitInner c new key separator).2.1.HalfFull c := by
  have h2 := c.two_le_maxKeys
  have hcopied : ∀ j count x,
      (inner.copied { new with highKey := inner.highKey } j count x).isLeaf = false :=
    fun j count x => (copied_isLeaf _ _ j count x).trans hnew
  have hinner : ∀ n : Node, n.isLeaf = false → c.maxKeys / 2 ≤ n.size → n.HalfFull c := by
    intro n hl hs
    unfold HalfFull capacity
    rw [hl]
    exact hs
  rw [splitInner_eq]
  dsimp only
  split
  · dsimp only
    refine ⟨hinner _ hi ?_, hinner _ (hcopied _ _ _) ?_⟩
    · show c.maxKeys / 2 ≤ c.maxKeys / 2 - 1 + 1
      omega
    · show c.maxKeys / 2 ≤ c.maxKeys - c.maxKeys / 2
      omega
  · split
    · dsimp only
      refine ⟨hinner _ hi le_rfl, hinner _ (hcopied _ _ _) ?_⟩
      show c.maxKeys / 2 ≤ c.maxKeys - c.maxKeys / 2
      omega
    · dsimp only
      refine ⟨hinner _ hi le_rfl,
        hinner _ (hcopied (c.maxKeys / 2 + 1) _ (inner.separators (c.maxKeys / 2 + 1))) ?_⟩
      show c.maxKeys / 2 ≤ c.maxKeys - c.maxKeys / 2 - 1 + 1
      omega

end Node

/-! ## Steps -/

/-- Every node is half full or has kept what it had. -/
structure Fills (c : Capacity) (t t' : Tree) : Prop where
  root : t'.root = t.root
  count_le : t.count ≤ t'.count
  node : ∀ m < t'.count, (t'.node m).HalfFull c ∨
    m < t.count ∧ (t'.node m).isLeaf = (t.node m).isLeaf ∧ (t.node m).size ≤ (t'.node m).size

theorem Occupied.fills (h : Occupied c t) (hf : Fills c t t') : Occupied c t' := by
  have hroot : t.root < t'.count := lt_of_lt_of_le h.root_lt hf.count_le
  refine ⟨by rw [hf.root]; exact hroot, ?_, ?_⟩
  · intro n hn hne
    rw [hf.root] at hne
    rcases hf.node n hn with hhalf | ⟨hlt, hl, hs⟩
    · exact hhalf
    · exact (h.halfFull n hlt hne).grow hl hs
  · rw [hf.root]
    intro hi
    rcases hf.node _ hroot with hhalf | ⟨_, hl, hs⟩
    · exact hhalf.one_le
    · have := h.root (hl.symm.trans hi)
      omega

theorem fills_setNode {n' : Node} (hl : n'.isLeaf = (t.node n).isLeaf)
    (hs : (t.node n).size ≤ n'.size) : Fills c t (t.setNode n n') := by
  refine ⟨rfl, le_rfl, fun m hm => Or.inr ⟨hm, ?_⟩⟩
  by_cases hmn : m = n
  · rw [hmn, setNode_node_self]
    exact ⟨hl, hs⟩
  · rw [setNode_node_of_ne _ _ hmn]
    exact ⟨rfl, le_rfl⟩

/-- A leaf that hands a separator on has been split. -/
theorem insertIntoLeaf_fills (v : Value) (hn : n < t.count) (hl : (t.node n).isLeaf = true) :
    Fills c t (t.insertIntoLeaf c n k v).1 ∧
      ((t.insertIntoLeaf c n k v).2 ≠ none →
        ((t.insertIntoLeaf c n k v).1.node n).HalfFull c) := by
  rcases insertIntoLeaf_cases c t n k v with ⟨_, he⟩ | ⟨_, _, he⟩ | ⟨_, _, he⟩
  · rw [he]
    exact ⟨⟨rfl, le_rfl, fun m hm => Or.inr ⟨hm, rfl, le_rfl⟩⟩, fun hne => absurd rfl hne⟩
  · rw [he]
    refine ⟨fills_setNode rfl ?_, fun hne => absurd rfl hne⟩
    show (t.node n).size ≤ (t.node n).size + 1
    omega
  · have hsplit := splitLeafNode_isSplit (c := c) k v hn hl
    have hhalves : (t.leafHalves c n k v).1.HalfFull c ∧ (t.leafHalves c n k v).2.HalfFull c :=
      Node.splitLeaf_halfFull k v hl rfl
    have hleft : ((t.splitLeafNode c n k v).1.node n).HalfFull c := by
      rw [splitLeafNode_left hn]
      exact hhalves.1
    rw [he]
    refine ⟨⟨hsplit.root, hsplit.count ▸ Nat.le_succ _, ?_⟩, fun _ => hleft⟩
    intro m hm
    rw [hsplit.count] at hm
    by_cases hmn : m = n
    · rw [hmn]
      exact Or.inl hleft
    · by_cases hmc : m = t.count
      · rw [hmc, splitLeafNode_new]
        exact Or.inl hhalves.2
      · rw [hsplit.frame m hmn hmc]
        exact Or.inr ⟨by omega, rfl, le_rfl⟩

/-- An inner node that hands a separator on has been split. -/
theorem insertIntoInner_fills {s x : Nat} {up : Option (Nat × Nat)} (hn : n < t.count)
    (hl : (t.node n).isLeaf = false) (h : t.insertIntoInner c n s x = some (t', up)) :
    Fills c t t' ∧ (up ≠ none → (t'.node n).HalfFull c) := by
  unfold Tree.insertIntoInner at h
  dsimp only at h
  split at h
  next hf =>
    simp only [Option.some.injEq, Prod.mk.injEq] at h
    rcases h with ⟨rfl, rfl⟩
    refine ⟨fills_setNode rfl ?_, fun hne => absurd rfl hne⟩
    show (t.node n).size ≤ (t.node n).size + 1
    omega
  next hf =>
    rw [splitInnerNode_eq, Option.map_map, Option.map_eq_some_iff] at h
    rcases h with ⟨t1, hset, heq⟩
    obtain rfl : t1 = t' := (Prod.mk.inj heq).1
    rcases setParents_eq hset with ⟨parent, rfl⟩
    have hhalves : (t.innerHalves c n s x).1.HalfFull c ∧ (t.innerHalves c n s x).2.1.HalfFull c :=
      Node.splitInner_halfFull s x hl rfl
    have hleft : ((t.innerBase c n s x).node n).HalfFull c := by
      have hnode : (t.innerBase c n s x).node n = t.innerLeft c n s x := by
        simp [Tree.innerBase, Slots.store, hn.ne]
      rw [hnode]
      exact hhalves.1
    have hnew : ((t.innerBase c n s x).node t.count).HalfFull c := by
      have hnode : (t.innerBase c n s x).node t.count = t.innerRight c n s x :=
        Slots.store_self _ _ _
      rw [hnode]
      exact hhalves.2
    refine ⟨⟨rfl, Nat.le_succ _, ?_⟩, fun _ => hleft⟩
    intro m hm
    have hm' : m < t.count + 1 := hm
    by_cases hmn : m = n
    · rw [hmn]
      exact Or.inl hleft
    · by_cases hmc : m = t.count
      · rw [hmc]
        exact Or.inl hnew
      · have hnode : (t.innerBase c n s x).node m = t.node m := by
          simp [Tree.innerBase, Slots.store, hmn, hmc]
        refine Or.inr ⟨by omega, ?_⟩
        show ((t.innerBase c n s x).node m).isLeaf = _ ∧ _ ≤ ((t.innerBase c n s x).node m).size
        rw [hnode]
        exact ⟨rfl, le_rfl⟩

/-- A root is stacked on the two halves of the old one. -/
theorem Occupied.createNewRoot {s x : Nat} (h : Occupied c t)
    (hold : (t.node t.root).HalfFull c) : Occupied c (t.createNewRoot t.root x s) := by
  have hr := createNewRoot_isNewRoot t t.root x s
  refine ⟨?_, ?_, ?_⟩
  · rw [hr.root, hr.count]
    exact Nat.lt_succ_self _
  · intro n hn hne
    rw [hr.root] at hne
    rw [hr.count] at hn
    rw [hr.frame n hne]
    by_cases hroot : n = t.root
    · rw [hroot]
      exact hold
    · exact h.halfFull n (by omega) hroot
  · intro _
    rw [hr.root, hr.size]

/-- A separator that goes up comes from a node that has just been split. -/
theorem Ascent.occupied {up : Option (Nat × Nat)} (ha : Ascent c k t m path up t')
    (h : Occupied c t) (hsplit : up ≠ none → (t.node m).HalfFull c) : Occupied c t' := by
  induction ha with
  | stop => exact h
  | newRoot => exact h.createNewRoot (hsplit (by simp))
  | parent hp hl _ _ _ _ _ _ he _ ih =>
      rcases insertIntoInner_fills hp hl he with ⟨hf, hsplit'⟩
      exact ih (h.fills hf) hsplit'

theorem Serial.occupied {o : Op} {r : Value} (hs : Serial c t o t' r) (h : Occupied c t) :
    Occupied c t' := by
  cases hs with
  | insert hd ha =>
      rcases insertIntoLeaf_fills (c := c) _ hd.lt_count hd.isLeaf with ⟨hf, hsplit⟩
      exact ha.occupied (h.fills hf) hsplit
  | @update k n v path hd =>
      rcases Node.updateValue_eq c (t.node n) k v with ⟨values, he⟩
      rw [he]
      exact h.fills (fills_setNode rfl le_rfl)
  | find hd => exact h

/-! ## Counting -/

/-- Every separator of a level leads to one node of the next lower level. -/
theorem Strict.length_chain (h : Strict c t g none) (hl : l < g.level t.root) :
    (g.chain l).length = ((g.chain (l + 1)).map fun n => (t.node n).size + 1).sum := by
  have hlen := congrArg List.length (h.tiled l hl.le)
  have hslots : (g.chain (l + 1)).map (fun n => (t.slots g n).length) =
      (g.chain (l + 1)).map fun n => (t.node n).size + 1 := by
    apply List.map_congr_left
    intro n hn
    rcases (h.inv.chain.mem _ n).mp hn with ⟨hnc, hlv⟩
    exact length_slots ((h.inv.node n hnc).inner_of_level_pos (by omega))
  simp only [Ghost.posted] at hlen
  rw [above_of_lt hl, List.length_flatMap, hslots, Ghost.starts, List.length_map] at hlen
  exact hlen

/-- A level below the root has as many nodes as the least full one could have. -/
theorem Occupied.length_chain (ho : Occupied c t) (h : Strict c t g none) {d : Nat}
    (hl : g.level t.root = l + 1 + d) :
    2 * (c.maxKeys / 2 + 1) ^ d ≤ (g.chain l).length := by
  induction d generalizing l with
  | zero =>
      have htop : g.chain (l + 1) = [t.root] := by
        have hrow := h.row_eq (d := 0) (Nat.zero_le _)
        rw [hl] at hrow
        exact hrow.symm
      have hroot := ho.root ((h.inv.node _ h.inv.root_lt).inner_of_level_pos (by omega))
      rw [h.length_chain (by omega), htop]
      simp only [List.map_singleton, List.sum_singleton, pow_zero]
      omega
  | succ d ih =>
      have habove := ih (l := l + 1) (by omega)
      have hsize : ∀ s ∈ (g.chain (l + 1)).map (fun n => (t.node n).size + 1),
          c.maxKeys / 2 + 1 ≤ s := by
        intro s hs
        rcases List.mem_map.mp hs with ⟨n, hn, rfl⟩
        rcases (h.inv.chain.mem _ n).mp hn with ⟨hnc, hlv⟩
        have hne : n ≠ t.root := by
          rintro rfl
          omega
        have hhalf := ho.halfFull n hnc hne
        unfold Node.HalfFull Node.capacity at hhalf
        rw [(h.inv.node n hnc).inner_of_level_pos (by omega)] at hhalf
        exact Nat.succ_le_succ hhalf
      calc 2 * (c.maxKeys / 2 + 1) ^ (d + 1)
          = 2 * (c.maxKeys / 2 + 1) ^ d * (c.maxKeys / 2 + 1) := by ring
        _ ≤ (g.chain (l + 1)).length * (c.maxKeys / 2 + 1) := Nat.mul_le_mul_right _ habove
        _ ≤ ((g.chain (l + 1)).map fun n => (t.node n).size + 1).sum := by
          have hsum := List.card_nsmul_le_sum _ _ hsize
          rwa [List.length_map, smul_eq_mul] at hsum
        _ = (g.chain l).length := (h.length_chain (by omega)).symm

/-- The bindings of a tree whose root is on level `d + 1`. -/
theorem Occupied.length_content (ho : Occupied c t) (h : Strict c t g none) {d : Nat}
    (hl : g.level t.root = d + 1) :
    2 * (c.maxKeys / 2 + 1) ^ d * (c.maxItems / 2) ≤ t.content.length := by
  have hchain := ho.length_chain h (l := 0) (d := d) (by omega)
  have hsize : ∀ s ∈ (g.chain 0).map (fun n => (t.node n).entries.length), c.maxItems / 2 ≤ s := by
    intro s hs
    rcases List.mem_map.mp hs with ⟨n, hn, rfl⟩
    rcases (h.inv.chain.mem _ n).mp hn with ⟨hnc, hlv⟩
    have hleaf := (h.inv.node n hnc).leaf_iff.mpr hlv
    have hne : n ≠ t.root := by
      rintro rfl
      omega
    have hhalf := ho.halfFull n hnc hne
    unfold Node.HalfFull Node.capacity at hhalf
    rw [if_pos hleaf] at hhalf
    rwa [Node.length_entries hleaf]
  calc 2 * (c.maxKeys / 2 + 1) ^ d * (c.maxItems / 2)
      ≤ (g.chain 0).length * (c.maxItems / 2) := Nat.mul_le_mul_right _ hchain
    _ ≤ ((g.chain 0).map fun n => (t.node n).entries.length).sum := by
      have hsum := List.card_nsmul_le_sum _ _ hsize
      rwa [List.length_map, smul_eq_mul] at hsum
    _ = t.content.length := by
      rw [h.inv.content_eq, Tree.entriesOf, List.length_flatMap]

end BLinkTree

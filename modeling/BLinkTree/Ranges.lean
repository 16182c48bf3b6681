import BLinkTree.Operations

/-! # Inner nodes inside their ranges

The stricter invariant that the separator keys of every inner node lie between the
node's lower bound and its high key. A change keeps it when the separator it inserts
belongs to the node.
-/

namespace BLinkTree

variable {ι : Type} {c : Capacity} {t t' : Tree} {g g' : Ghost ι} {i : ι} {n s x : Nat}

/-- Node `n` has its separator keys in `[low, high_key)`. -/
def Ranged (t : Tree) (g : Ghost ι) (n : Nat) : Prop :=
  ∀ e ∈ (t.node n).seps, g.low n ≤ e.1 ∧ e.1 < (t.node n).highKey

def RangeInv (t : Tree) (g : Ghost ι) : Prop := ∀ n < t.count, Ranged t g n

theorem rangeInv_empty (memory : Nat → Memory) :
    RangeInv (Tree.empty memory) (Ghost.initial ι) := by
  intro n _ e he
  simp [Tree.empty, Node.create, Node.seps] at he

theorem Ranged.frame (h : Ranged t g n) (hn : n < t.count) (he : Evolves i t g t' g')
    (hnode : t'.node n = t.node n) : Ranged t' g' n := by
  unfold Ranged
  rw [hnode, he.low_eq n hn]
  exact h

theorem ranged_leaf (hl : (t.node n).isLeaf = true) : Ranged t g n := by
  intro e he
  simp [Node.seps, hl] at he

/-- Leaf sections change no inner node. -/
theorem RangeInv.insertIntoLeaf (h : RangeInv t g) (hn : n < t.count)
    (hl : (t.node n).isLeaf = true) {k : Nat} {v : Value}
    (he : Evolves i t g (t.insertIntoLeaf c n k v).1 g') :
    RangeInv (t.insertIntoLeaf c n k v).1 g' := by
  have hnew : ∀ m, t.count ≤ m → m < (t.insertIntoLeaf c n k v).1.count →
      ((t.insertIntoLeaf c n k v).1.node m).isLeaf = true := by
    intro m hm hlt
    rcases insertIntoLeaf_cases c t n k v with ⟨_, hx⟩ | ⟨_, _, hx⟩ | ⟨_, _, hx⟩
    · rw [hx] at hlt
      exact absurd hlt (not_lt.mpr hm)
    · rw [hx] at hlt
      exact absurd hlt (not_lt.mpr hm)
    · rw [hx] at hlt ⊢
      have hmc : m = t.count := by
        have : m < t.count + 1 := hlt
        omega
      rw [hmc, splitLeafNode_new]
      exact (leafHalves_shape k v hl).new_isLeaf
  intro m hm
  by_cases hmc : m < t.count
  · by_cases hmn : m = n
    · subst hmn
      apply ranged_leaf
      rw [he.isLeaf_eq m hmc, hl]
    · exact (h m hmc).frame hmc he (insertIntoLeaf_frame hmc hmn)
  · exact ranged_leaf (hnew m (not_lt.mp hmc) hm)

/-- A separator that belongs to the node is inserted. -/
theorem RangeInv.write (h : RangeInv t g) (hw : IsWrite t t' n) (he : Evolves i t g t' g')
    (hn : n < t.count) (hseps : (t'.node n).seps = OrderedMap.insertNew s (some x) (t.node n).seps)
    (hlow : g.low n ≤ s) (hhigh : s < (t.node n).highKey) : RangeInv t' g' := by
  intro m hm
  rw [hw.count] at hm
  by_cases hmn : m = n
  · subst hmn
    intro e hmem
    rw [hw.highKey, he.low_eq m hm]
    rw [hseps] at hmem
    rcases OrderedMap.mem_insertNew.mp hmem with rfl | hmem
    · exact ⟨hlow, hhigh⟩
    · exact h m hm e hmem
  · exact (h m hm).frame hm he (hw.frame m hmn)

/-- A node is split while a separator that belongs to it is inserted. -/
theorem RangeInv.split {up : Nat} (h : RangeInv t g) (hinv : Inv c t' g') (hs : IsSplit t t' n up)
    (he : Evolves i t g t' g') (hn : n < t.count)
    (hcut : OrderedMap.insertNew s (some x) (t.node n).seps =
      (t'.node n).seps ++ (up, (t'.node t.count).first) :: (t'.node t.count).seps)
    (hsorted : OrderedMap.Sorted (OrderedMap.insertNew s (some x) (t.node n).seps))
    (hlow : g.low n ≤ s) (hhigh : s < (t.node n).highKey) :
    RangeInv t' g' ∧ g.low n ≤ up ∧ up < (t.node n).highKey := by
  have hold : ∀ e ∈ OrderedMap.insertNew s (some x) (t.node n).seps,
      g.low n ≤ e.1 ∧ e.1 < (t.node n).highKey := by
    intro e hmem
    rcases OrderedMap.mem_insertNew.mp hmem with rfl | hmem
    · exact ⟨hlow, hhigh⟩
    · exact h n hn e hmem
  rw [hcut] at hold hsorted
  rcases OrderedMap.sorted_append.mp hsorted with ⟨_, hs2, hs3⟩
  rcases OrderedMap.sorted_cons.mp hs2 with ⟨hs4, _⟩
  have hup := hold (up, (t'.node t.count).first) (by simp)
  have hnc : n < t'.count := lt_of_lt_of_le hn he.count_le
  have hlowc : g'.low t.count = up := by
    rw [((hinv.node n hnc).right_some _ hs.left_right).2.2.2, hs.left_highKey]
  refine ⟨?_, hup⟩
  intro m hm
  rw [hs.count] at hm
  by_cases hmc : m = t.count
  · subst hmc
    intro e hmem
    have h1 := hs4 e hmem
    have h2 := (hold e (by simp [hmem])).2
    rw [hlowc, hs.new_highKey]
    exact ⟨h1.le, h2⟩
  · have hm' : m < t.count := by omega
    by_cases hmn : m = n
    · subst hmn
      intro e hmem
      have h1 := (hold e (by simp [hmem])).1
      have h2 := hs3 e hmem (up, (t'.node t.count).first) (by simp)
      rw [hs.left_highKey, he.low_eq m hn]
      exact ⟨h1, h2⟩
    · exact (h m hm').frame hm' he (hs.frame m hmn hmc)

theorem RangeInv.newRoot {left : Nat} (h : RangeInv t g) (hinv : Inv c t' g')
    (hr : IsNewRoot t t' left x s) (he : Evolves i t g t' g') (hs : s < maxKey) :
    RangeInv t' g' := by
  intro m hm
  rw [hr.count] at hm
  by_cases hmc : m = t.count
  · subst hmc
    have hlow := hinv.low_root
    rw [hr.root] at hlow
    intro e hmem
    rw [hr.seps] at hmem
    rw [List.mem_singleton.mp hmem, hlow, hr.highKey]
    exact ⟨Nat.zero_le s, hs⟩
  · have hm' : m < t.count := by omega
    exact (h m hm').frame hm' he (hr.frame m hmc)

end BLinkTree

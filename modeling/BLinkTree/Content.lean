import BLinkTree.Mutation
import Mathlib.Data.List.Perm.Subperm

/-! # What the leaves hold

The walk from the leftmost leaf along the right siblings visits the leaf chain, so
the content of a tree is the concatenation of the bindings along that chain. A
change inside the leaf that covers a key is a change of the ordered map at that key.
-/

namespace BLinkTree

variable {ι : Type} {c : Capacity} {t t' : Tree} {g : Ghost ι} {n : Nat}

/-- The bindings of a list of nodes. -/
def Tree.entriesOf (t : Tree) (l : List Nat) : List (Nat × Value) :=
  l.flatMap fun n => (t.node n).entries

theorem entriesOf_append (t : Tree) (l m : List Nat) :
    t.entriesOf (l ++ m) = t.entriesOf l ++ t.entriesOf m := by
  simp [Tree.entriesOf]

theorem entriesOf_cons (t : Tree) (n : Nat) (l : List Nat) :
    t.entriesOf (n :: l) = (t.node n).entries ++ t.entriesOf l := by
  simp [Tree.entriesOf]

theorem entriesOf_congr {l : List Nat} (h : ∀ n ∈ l, (t'.node n).entries = (t.node n).entries) :
    t'.entriesOf l = t.entriesOf l := by
  induction l with
  | nil => rfl
  | cons a l ih =>
      rw [entriesOf_cons, entriesOf_cons, h a (by simp), ih fun n hn => h n (by simp [hn])]

/-! ## The walk along the leaves -/

/-- Descending by the first separators keeps the lower bound zero. -/
theorem Inv.leftmostLeaf_spec (h : Inv c t g) (fuel : Nat) {n : Nat} (hn : n < t.count)
    (hlow : g.low n = 0) (hf : g.level n ≤ fuel) :
    t.leftmostLeaf fuel n < t.count ∧ g.low (t.leftmostLeaf fuel n) = 0 ∧
      g.level (t.leftmostLeaf fuel n) = 0 := by
  induction fuel generalizing n with
  | zero => exact ⟨hn, hlow, Nat.le_zero.mp hf⟩
  | succ fuel ih =>
      have hi := h.node n hn
      simp only [Tree.leftmostLeaf]
      cases hl : (t.node n).isLeaf with
      | true =>
          have hfirst : (t.node n).first = none := by simp [Node.first, hl]
          rw [hfirst]
          exact ⟨hn, hlow, hi.leaf_iff.mp hl⟩
      | false =>
          obtain ⟨s, h1, h2, h3, h4⟩ := hi.first hl
          rw [h1]
          exact ih h2 (by omega) (by omega)

theorem siblings_of_linked {fuel a : Nat} {l : List Nat} (h : Linked t (a :: l))
    (hf : l.length < fuel) : t.siblings fuel a = a :: l := by
  induction l generalizing a fuel with
  | nil =>
      obtain ⟨fuel, rfl⟩ : ∃ f, fuel = f + 1 := ⟨fuel - 1, by simp at hf; omega⟩
      have hr : (t.node a).rightSibling = none := h.1
      simp only [Tree.siblings, hr]
  | cons b l ih =>
      simp only [List.length_cons] at hf
      obtain ⟨fuel, rfl⟩ : ∃ f, fuel = f + 1 := ⟨fuel - 1, by omega⟩
      have hr : (t.node a).rightSibling = some b := h.1
      simp only [Tree.siblings, hr]
      rw [ih h.2 (by omega)]

theorem ChainInv.length_le (h : ChainInv t g) (l : Nat) : (g.chain l).length ≤ t.count := by
  have hsub : g.chain l ⊆ List.range t.count :=
    fun n hn => List.mem_range.mpr ((h.mem l n).mp hn).1
  have hle := (List.subperm_of_subset (h.nodup l) hsub).length_le
  simpa using hle

theorem Inv.leaves_eq (h : Inv c t g) : t.leaves = g.chain 0 := by
  obtain ⟨h1, h2, h3⟩ := h.leftmostLeaf_spec t.count h.root_lt h.low_root h.top_lt.le
  have hmem := (h.chain.mem 0 _).mpr ⟨h1, h3⟩
  cases hc : g.chain 0 with
  | nil => simp [hc] at hmem
  | cons a l =>
      have ha := (h.chain.mem 0 a).mp (by simp [hc])
      have hlow : g.low a = 0 := h.chain.head 0 a (by simp [hc])
      have hla := (h.node a ha.1).leaf_iff.mpr ha.2
      have hlb := (h.node _ h1).leaf_iff.mpr h3
      have heq : t.leftmostLeaf t.count t.root = a := by
        have hra := ((h.node a ha.1).leaf_range hla).1
        have hrb := ((h.node _ h1).leaf_range hlb).1
        exact h.leaf_unique h1 ha.1 hlb hla h2.le (by omega) hlow.le (by omega)
      unfold Tree.leaves
      rw [heq]
      have hlen := h.chain.length_le 0
      have hlink := h.chain.linked 0
      rw [hc] at hlen hlink
      exact siblings_of_linked hlink hlen

theorem Inv.content_eq (h : Inv c t g) : t.content = t.entriesOf (g.chain 0) := by
  unfold Tree.content
  rw [h.leaves_eq]
  rfl

/-! ## Lower bounds -/

theorem Linked.exists_left {l : List Nat} {n a : Nat} (h : Linked t (a :: l)) (hn : n ∈ l) :
    ∃ m ∈ a :: l, (t.node m).rightSibling = some n := by
  induction l generalizing a with
  | nil => simp at hn
  | cons b l ih =>
      rcases List.mem_cons.mp hn with rfl | hn
      · exact ⟨a, by simp, h.1⟩
      · obtain ⟨m, hm, hr⟩ := ih h.2 hn
        exact ⟨m, by simp only [List.mem_cons] at hm ⊢; tauto, hr⟩

/-- The high key of the left neighbour is the lower bound. -/
theorem Inv.lowKey_eq (h : Inv c t g) (hn : n < t.count) : t.lowKey n = g.low n := by
  unfold Tree.lowKey
  split
  next hnone =>
    have hmem := (h.chain.mem _ n).mpr ⟨hn, rfl⟩
    cases hc : g.chain (g.level n) with
    | nil => simp [hc] at hmem
    | cons a l =>
        have hlink := h.chain.linked (g.level n)
        rw [hc] at hmem hlink
        rcases List.mem_cons.mp hmem with rfl | hmem
        · exact (h.chain.head _ n (by rw [hc]; rfl)).symm
        · obtain ⟨m, hm, hr⟩ := hlink.exists_left hmem
          rw [← hc] at hm
          have hmc := ((h.chain.mem _ m).mp hm).1
          have hf := List.find?_eq_none.mp hnone m (List.mem_range.mpr hmc)
          simp [hr] at hf
  next m hsome =>
    have hr : (t.node m).rightSibling = some n := by simpa using List.find?_some hsome
    have hm : m < t.count := List.mem_range.mp (List.mem_of_find?_eq_some hsome)
    exact (((h.node m hm).right_some n hr).2.2.2).symm

theorem Inv.covers (h : Inv c t g) (hn : n < t.count) (hl : (t.node n).isLeaf = true) {k : Nat}
    (hlow : g.low n ≤ k) (hhigh : k < (t.node n).highKey) : t.Covers n k := by
  refine ⟨hn, hl, by rwa [h.lowKey_eq hn], hhigh, ?_⟩
  intro m hm hml h1 h2
  rw [h.lowKey_eq hm] at h1
  exact h.leaf_unique hm hn hml hl h1 h2 hlow hhigh

/-! ## Order -/

theorem Inv.entries_sorted (h : Inv c t g) (hn : n < t.count) :
    OrderedMap.Sorted (t.node n).entries := by
  cases hl : (t.node n).isLeaf with
  | false => simp [Node.entries, hl, OrderedMap.Sorted]
  | true =>
      have hs := (h.node n hn).wellFormed.sorted
      rw [Node.liveKeys_of_leaf hl] at hs
      exact List.pairwise_map.mp hs

/-- The leaf chain around the leaf that covers `k`. -/
theorem Inv.chain_around (h : Inv c t g) (hn : n < t.count) (hl : (t.node n).isLeaf = true)
    {k : Nat} (hlow : g.low n ≤ k) (hhigh : k < (t.node n).highKey) :
    ∃ pre post, g.chain 0 = pre ++ n :: post ∧ n ∉ pre ∧ n ∉ post ∧
      (∀ e ∈ t.entriesOf pre, e.1 < k) ∧ ∀ e ∈ t.entriesOf post, k < e.1 := by
  obtain ⟨pre, post, he, h1, h2⟩ := h.chain.around hn
  rw [(h.node n hn).leaf_iff.mp hl] at he
  have hord := h.chain_ordered
  unfold Ordered at hord
  have hleaf : ∀ m ∈ g.chain 0, m < t.count ∧ (t.node m).isLeaf = true := by
    intro m hm
    obtain ⟨hmc, hlv⟩ := (h.chain.mem 0 m).mp hm
    exact ⟨hmc, (h.node m hmc).leaf_iff.mpr hlv⟩
  rw [he] at hord hleaf
  obtain ⟨_, h4, h5⟩ := List.pairwise_append.mp hord
  refine ⟨pre, post, he, h1, h2, ?_, ?_⟩
  · intro e hm
    obtain ⟨m, hm1, hm2⟩ := List.mem_flatMap.mp hm
    obtain ⟨hmc, hml⟩ := hleaf m (by simp [hm1])
    have hr := ((h.node m hmc).leaf_range hml).2 e hm2
    have := h5 m hm1 n (by simp)
    omega
  · intro e hm
    obtain ⟨m, hm1, hm2⟩ := List.mem_flatMap.mp hm
    obtain ⟨hmc, hml⟩ := hleaf m (by simp [hm1])
    have hr := ((h.node m hmc).leaf_range hml).2 e hm2
    have := (List.pairwise_cons.mp h4).1 m hm1
    omega

theorem Inv.entriesOf_sorted (h : Inv c t g) {l : List Nat}
    (hl : Ordered t g l) (hmem : ∀ m ∈ l, m < t.count ∧ (t.node m).isLeaf = true) :
    OrderedMap.Sorted (t.entriesOf l) := by
  induction l with
  | nil => exact OrderedMap.sorted_nil
  | cons a l ih =>
      obtain ⟨ha, hl⟩ := List.pairwise_cons.mp hl
      obtain ⟨hac, hal⟩ := hmem a (by simp)
      rw [entriesOf_cons]
      refine (h.entries_sorted hac).append (ih hl fun m hm => hmem m (by simp [hm])) ?_
      intro e he e' he'
      obtain ⟨m, hm1, hm2⟩ := List.mem_flatMap.mp he'
      obtain ⟨hmc, hml⟩ := hmem m (by simp [hm1])
      have h1 := ((h.node a hac).leaf_range hal).2 e he
      have h2 := ((h.node m hmc).leaf_range hml).2 e' hm2
      have := ha m hm1
      omega

/-- No key of the content is the largest one. -/
theorem Inv.lt_maxKey_of_get? (h : Inv c t g) {k : Nat} {v : Value}
    (hk : OrderedMap.get? k t.content = some v) : k < maxKey := by
  have hmem := OrderedMap.mem_of_get? hk
  rw [h.content_eq] at hmem
  rcases List.mem_flatMap.mp hmem with ⟨n, hn, he⟩
  rcases (h.chain.mem 0 n).mp hn with ⟨hnc, hlv⟩
  have hi := h.node n hnc
  have hrange := (hi.leaf_range (hi.leaf_iff.mpr hlv)).2 (k, v) he
  exact lt_of_lt_of_le hrange.2 hi.highKey_le

/-- The content is strictly sorted by key. -/
theorem Inv.content_sorted (h : Inv c t g) : OrderedMap.Sorted t.content := by
  rw [h.content_eq]
  refine h.entriesOf_sorted h.chain_ordered fun m hm => ?_
  obtain ⟨hmc, hlv⟩ := (h.chain.mem 0 m).mp hm
  exact ⟨hmc, (h.node m hmc).leaf_iff.mpr hlv⟩

theorem Inv.content_keys_nodup (h : Inv c t g) : (t.content.map Prod.fst).Nodup :=
  (List.pairwise_map.mpr h.content_sorted).imp fun hlt => Nat.ne_of_lt hlt

/-- A key is bound by the content exactly as by the leaf that covers it. -/
theorem Inv.get?_content (h : Inv c t g) (hn : n < t.count) (hl : (t.node n).isLeaf = true)
    {k : Nat} (hlow : g.low n ≤ k) (hhigh : k < (t.node n).highKey) :
    OrderedMap.get? k t.content = OrderedMap.get? k (t.node n).entries := by
  obtain ⟨pre, post, he, _, _, h3, h4⟩ := h.chain_around hn hl hlow hhigh
  have hs := h.content_sorted
  rw [h.content_eq, he, entriesOf_append, entriesOf_cons] at hs ⊢
  cases hg : OrderedMap.get? k (t.node n).entries with
  | some v =>
      refine OrderedMap.get?_eq_some_of_mem hs ?_
      simp [OrderedMap.mem_of_get? hg]
  | none =>
      have hn := OrderedMap.get?_eq_none_iff.mp hg
      refine OrderedMap.get?_eq_none_iff.mpr ?_
      simp only [List.map_append, List.mem_append, not_or]
      exact ⟨OrderedMap.notMem_fst_of_lt h3, hn, OrderedMap.notMem_fst_of_gt h4⟩

/-! ## Changes of one leaf -/

/-- A change of the leaf that covers `k` changes the content at that leaf. -/
theorem Inv.content_writeLeaf (h : Inv c t g) (h' : Inv c t' g) (hn : n < t.count)
    (hw : IsWrite t t' n) (hl : (t.node n).isLeaf = true) {k : Nat}
    (hlow : g.low n ≤ k) (hhigh : k < (t.node n).highKey) :
    ∃ l r, t.content = l ++ ((t.node n).entries ++ r) ∧
      t'.content = l ++ ((t'.node n).entries ++ r) ∧
      (∀ e ∈ l, e.1 < k) ∧ ∀ e ∈ r, k < e.1 := by
  obtain ⟨pre, post, he, h1, h2, h3, h4⟩ := h.chain_around hn hl hlow hhigh
  have hframe : ∀ l : List Nat, n ∉ l → t'.entriesOf l = t.entriesOf l := by
    intro l hl
    refine entriesOf_congr fun m hm => ?_
    rw [hw.frame m fun hmn => hl (hmn ▸ hm)]
  refine ⟨t.entriesOf pre, t.entriesOf post, ?_, ?_, h3, h4⟩
  · rw [h.content_eq, he, entriesOf_append, entriesOf_cons]
  · rw [h'.content_eq, he, entriesOf_append, entriesOf_cons, hframe pre h1, hframe post h2]

/-- A split of the leaf that covers `k` changes the content at that leaf. -/
theorem Inv.content_splitLeaf (h : Inv c t g) {s : Nat} {owner : Nat → Owner ι}
    (h' : Inv c t' (g.split n t.count s owner)) (hn : n < t.count) (hs : IsSplit t t' n s)
    (hl : (t.node n).isLeaf = true) {k : Nat} (hlow : g.low n ≤ k)
    (hhigh : k < (t.node n).highKey) :
    ∃ l r, t.content = l ++ ((t.node n).entries ++ r) ∧
      t'.content = l ++ (((t'.node n).entries ++ (t'.node t.count).entries) ++ r) ∧
      (∀ e ∈ l, e.1 < k) ∧ ∀ e ∈ r, k < e.1 := by
  obtain ⟨pre, post, he, h1, h2, h3, h4⟩ := h.chain_around hn hl hlow hhigh
  have hlv := (h.node n hn).leaf_iff.mp hl
  have hframe : ∀ l : List Nat, n ∉ l → (∀ m ∈ l, m < t.count) →
      t'.entriesOf l = t.entriesOf l := by
    intro l hl hlt
    refine entriesOf_congr fun m hm => ?_
    rw [hs.frame m (fun hmn => hl (hmn ▸ hm)) (hlt m hm).ne]
  have hlt : ∀ m ∈ pre ++ n :: post, m < t.count :=
    fun m hm => ((h.chain.mem 0 m).mp (he ▸ hm)).1
  have hchain : (g.split n t.count s owner).chain 0 = pre ++ n :: t.count :: post := by
    rw [← hlv] at he ⊢
    exact g.split_chain_eq t.count s owner he h1
  refine ⟨t.entriesOf pre, t.entriesOf post, ?_, ?_, h3, h4⟩
  · rw [h.content_eq, he, entriesOf_append, entriesOf_cons]
  · rw [h'.content_eq, hchain, entriesOf_append, entriesOf_cons, entriesOf_cons,
      hframe pre h1 fun m hm => hlt m (by simp [hm]),
      hframe post h2 fun m hm => hlt m (by simp [hm]), List.append_assoc]

/-- Changes of the inner nodes do not change the content. -/
theorem Inv.content_inner {g' : Ghost ι} (h : Inv c t g) (h' : Inv c t' g')
    (hchain : g'.chain 0 = g.chain 0)
    (hframe : ∀ m < t.count, (t.node m).isLeaf = true → t'.node m = t.node m) :
    t'.content = t.content := by
  rw [h.content_eq, h'.content_eq, hchain]
  refine entriesOf_congr fun m hm => ?_
  obtain ⟨hmc, hlv⟩ := (h.chain.mem 0 m).mp hm
  rw [hframe m hmc ((h.node m hmc).leaf_iff.mpr hlv)]

end BLinkTree

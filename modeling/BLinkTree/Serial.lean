import BLinkTree.Calls
import BLinkTree.Shape

/-! # One operation at a time

What an operation does to a tree that nobody else uses, without the code of any
implementation: it goes down from the root to the leaf that covers its key, works on
the leaf and carries the separators up to the nodes it came through. The relations list
every condition that one of the implementations tests on the way: the high keys that a
right move asks for, the parent pointers of the tasks, and that the node below is not
the right sibling, which decides what the optimistic tree pushes on its path.
-/

namespace BLinkTree

variable {c : Capacity} {t t' : Tree} {g g' : Ghost Nat} {k n m : Nat} {path path' : List Nat}

/-- From node `n` with the path above it down to leaf `m`. -/
inductive Descent (t : Tree) (k : Nat) : Nat → List Nat → Nat → List Nat → Prop
  | leaf {n : Nat} {path : List Nat} : n < t.count → (t.node n).isLeaf = true →
      k < (t.node n).highKey → Descent t k n path n path
  | inner {n y m : Nat} {path path' : List Nat} : n < t.count → (t.node n).isLeaf = false →
      k < (t.node n).highKey → (t.node n).child k = some y → (t.node n).rightSibling ≠ some y →
      Descent t k y (n :: path) m path' → Descent t k n path m path'

/-- The pair `up` of node `m` goes up along the path. -/
inductive Ascent (c : Capacity) (k : Nat) :
    Tree → Nat → List Nat → Option (Nat × Nat) → Tree → Prop
  | stop {t : Tree} {m : Nat} {path : List Nat} : Ascent c k t m path none t
  | newRoot {t : Tree} {s x : Nat} : t.root < t.count → t.parent t.root = none →
      Ascent c k t t.root [] (some (x, s)) (t.createNewRoot t.root x s)
  | parent {t t₁ t' : Tree} {m p s x : Nat} {path : List Nat} {up : Option (Nat × Nat)} :
      p < t.count → (t.node p).isLeaf = false → k < (t.node p).highKey →
      s < (t.node p).highKey → m < t.count → t.parent m = some p → x < t.count →
      t.parent x = some p → t.insertIntoInner c p s x = some (t₁, up) →
      Ascent c k t₁ p path up t' → Ascent c k t m (p :: path) (some (x, s)) t'

/-- One operation, with the tree behind it and its result. -/
inductive Serial (c : Capacity) (t : Tree) : Op → Tree → Value → Prop
  | insert {k n : Nat} {v : Value} {path : List Nat} {t' : Tree} :
      Descent t k t.root [] n path →
      Ascent c k (t.insertIntoLeaf c n k v).1 n path (t.insertIntoLeaf c n k v).2 t' →
      Serial c t (.insert k v) t' 0
  | update {k n : Nat} {v : Value} {path : List Nat} : Descent t k t.root [] n path →
      Serial c t (.update k v) (t.setNode n ((t.node n).updateValue c k v)) 0
  | find {k n : Nat} {path : List Nat} : Descent t k t.root [] n path →
      Serial c t (.find k) t ((t.node n).findValue c k)

theorem Descent.key_lt (h : Descent t k n path m path') : k < (t.node m).highKey := by
  induction h with
  | leaf _ _ hh => exact hh
  | inner _ _ _ _ _ _ ih => exact ih

theorem Descent.isLeaf (h : Descent t k n path m path') : (t.node m).isLeaf = true := by
  induction h with
  | leaf _ hl _ => exact hl
  | inner _ _ _ _ _ _ ih => exact ih

theorem Descent.lt_count (h : Descent t k n path m path') : m < t.count := by
  induction h with
  | leaf hn _ _ => exact hn
  | inner _ _ _ _ _ _ ih => exact ih

theorem Descent.low_le (h : Descent t k n path m path') (hinv : Inv c t g)
    (hlow : g.low n ≤ k) : g.low m ≤ k := by
  induction h with
  | leaf _ _ _ => exact hlow
  | inner hn hl _ hy _ _ ih =>
      rcases (hinv.node _ hn).child hl hlow with ⟨y', hy', _, hlow', _⟩
      rw [hy, Option.some.injEq] at hy'
      subst hy'
      exact ih hlow'

/-- The descent ends in the leaf that is responsible for the key. -/
theorem Descent.covers (h : Descent t k t.root path m path') (hinv : Inv c t g) :
    t.Covers m k := by
  have hlow := h.low_le hinv (by rw [hinv.low_root]; exact Nat.zero_le k)
  exact hinv.covers h.lt_count h.isLeaf hlow h.key_lt

theorem Descent.suffix (h : Descent t k n path m path') : path <:+ path' := by
  induction h with
  | leaf _ _ _ => exact List.suffix_refl _
  | inner _ _ _ _ _ _ ih => exact (List.suffix_cons _ _).trans ih

/-- A descent comes through one node on every level. -/
theorem Descent.length_path (h : Descent t k n path m path') (hs : Strict c t g none) :
    path'.length = path.length + g.level n := by
  induction h with
  | leaf hn hl _ => rw [(hs.inv.node _ hn).leaf_iff.mp hl, Nat.add_zero]
  | @inner n y m path path' hn hl _ hy _ _ ih =>
      have hlv := (hs.tiled.children_spec hs.inv hn hl ((hs.inv.node n hn).child_mem hl hy)).2.1
      rw [ih, List.length_cons]
      omega

theorem Ascent.eq_of_none {up : Option (Nat × Nat)} (h : Ascent c k t m path up t')
    (hup : up = none) : t' = t := by
  cases h with
  | stop => rfl
  | newRoot => simp at hup
  | parent => simp at hup

/-! ## The nodes above a node -/

/-- Node `p` has `m` as a child and covers the key and the range of `m`. -/
structure Above (t : Tree) (g : Ghost Nat) (k m p : Nat) : Prop where
  lt_count : p < t.count
  inner : (t.node p).isLeaf = false
  child : some m ∈ (t.node p).children
  level_eq : g.level m + 1 = g.level p
  low_le : g.low p ≤ g.low m
  highKey_le : (t.node m).highKey ≤ (t.node p).highKey
  key_lt : k < (t.node p).highKey

/-- The path from a node to the root. -/
def Spine (t : Tree) (g : Ghost Nat) (k : Nat) : Nat → List Nat → Prop
  | m, [] => m = t.root
  | m, p :: path => Above t g k m p ∧ Spine t g k p path

/-- A change that shrinks `m` at most and leaves the higher nodes alone. -/
theorem Above.frame {p : Nat} (h : Above t g k m p) (hm : m < t.count)
    (he : Evolves n t g t' g') (hp : t'.node p = t.node p)
    (hh : (t'.node m).highKey ≤ (t.node m).highKey) : Above t' g' k m p := by
  have hpc := h.lt_count
  refine ⟨lt_of_lt_of_le hpc he.count_le, ?_, ?_, ?_, ?_, ?_, ?_⟩
  · rw [hp]
    exact h.inner
  · rw [hp]
    exact h.child
  · rw [he.level_eq m hm, he.level_eq p hpc]
    exact h.level_eq
  · rw [he.low_eq m hm, he.low_eq p hpc]
    exact h.low_le
  · rw [hp]
    exact hh.trans h.highKey_le
  · rw [hp]
    exact h.key_lt

theorem Spine.frame (h : Spine t g k m path) (hm : m < t.count) (he : Evolves n t g t' g')
    (hroot : t'.root = t.root)
    (hnode : ∀ p < t.count, g.level m < g.level p → t'.node p = t.node p)
    (hh : (t'.node m).highKey ≤ (t.node m).highKey) : Spine t' g' k m path := by
  induction path generalizing m with
  | nil =>
      have hmr : m = t.root := h
      rw [← hroot] at hmr
      exact hmr
  | cons p path ih =>
      rcases h with ⟨habove, hrest⟩
      have hlv := habove.level_eq
      have hp := hnode p habove.lt_count (by omega)
      refine ⟨habove.frame hm he hp hh, ih hrest habove.lt_count ?_ (by rw [hp])⟩
      intro q hq hlt
      exact hnode q hq (by omega)

/-! ## Down -/

/-- The root covers every key. -/
theorem Strict.highKey_root (h : Strict c t g none) : (t.node t.root).highKey = maxKey := by
  have hrow := h.row_eq (Nat.zero_le _)
  have hlink := h.inv.chain.linked (g.level t.root - 0)
  rw [← hrow] at hlink
  exact (h.inv.node _ h.inv.root_lt).right_none hlink.1

/-- The child for a key that the node covers. -/
theorem Strict.child_above (h : Strict c t g none) (hn : n < t.count)
    (hl : (t.node n).isLeaf = false) (hlow : g.low n ≤ k) (hhigh : k < (t.node n).highKey) :
    ∃ y, (t.node n).child k = some y ∧ y < t.count ∧ g.low y ≤ k ∧ k < (t.node y).highKey ∧
      Above t g k y n := by
  have hi := h.inv.node n hn
  rcases hi.child hl hlow with ⟨y, hy, hyc, hylow, _⟩
  have hsize : (t.node n).size < 2 ^ 14 :=
    lt_of_le_of_lt hi.wellFormed.size_le ((t.node n).capacity_lt c)
  rcases Node.childSlot_spec hi.wellFormed.monotone hsize.le k with ⟨hle, _, hgt⟩
  have hmem : some y ∈ (t.node n).children := Node.mem_children.mpr ⟨hl, _, hle, hy⟩
  rcases h.tiled.children_spec h.inv hn hl hmem with ⟨_, hlv, _, _⟩
  rcases h.child_range hn hl hmem with ⟨_, hlow', hhigh'⟩
  rcases h.separator_spec hn hl hle with ⟨y', hsep, _, _, hupper⟩
  obtain rfl : y = y' := Option.some.inj (hy.symm.trans hsep)
  refine ⟨y, hy, hyc, hylow, ?_, hn, hl, hmem, hlv, hlow', hhigh', hhigh⟩
  rw [hupper, Tree.upper]
  split
  next hlt => exact hgt _ le_rfl hlt
  next hge => exact hhigh

theorem Strict.descent_from (h : Strict c t g none) (hn : n < t.count) (hlow : g.low n ≤ k)
    (hhigh : k < (t.node n).highKey) (hs : Spine t g k n path) :
    ∃ m path', Descent t k n path m path' ∧ m < t.count ∧ (t.node m).isLeaf = true ∧
      g.low m ≤ k ∧ k < (t.node m).highKey ∧ Spine t g k m path' := by
  generalize hlv : g.level n = l
  induction l generalizing n path with
  | zero =>
      have hleaf := (h.inv.node n hn).leaf_iff.mpr hlv
      exact ⟨n, path, .leaf hn hleaf hhigh, hn, hleaf, hlow, hhigh, hs⟩
  | succ l ih =>
      have hl := (h.inv.node n hn).inner_of_level_pos (by omega)
      rcases h.child_above hn hl hlow hhigh with ⟨y, hy, hyc, hylow, hyhigh, habove⟩
      have hylv := habove.level_eq
      have hys : Spine t g k y (n :: path) := ⟨habove, hs⟩
      rcases ih hyc hylow hyhigh hys (by omega) with ⟨m, path', hd, hm⟩
      refine ⟨m, path', .inner hn hl hhigh hy ?_ hd, hm⟩
      -- the child is on a lower level than the sibling
      intro hr
      have := ((h.inv.node n hn).right_some y hr).2.2.1
      omega

theorem Strict.descent (h : Strict c t g none) (hk : k < maxKey) :
    ∃ m path, Descent t k t.root [] m path ∧ m < t.count ∧ (t.node m).isLeaf = true ∧
      g.low m ≤ k ∧ k < (t.node m).highKey ∧ Spine t g k m path := by
  refine h.descent_from h.inv.root_lt ?_ ?_ rfl
  · rw [h.inv.low_root]
    exact Nat.zero_le k
  · rw [h.highKey_root]
    exact hk

/-! ## Up -/

/-- The next parent holds the separator. -/
theorem Above.belongs {p s x : Nat} (h : Above t g k m p) (hlv : g.level x = g.level m)
    (hlow : g.low m ≤ s) (hs : s < (t.node p).highKey) : Belongs t g p s x := by
  have hplv := h.level_eq
  have hplow := h.low_le
  exact ⟨h.lt_count, by omega, by omega, hs⟩

/-- The separator ends before the first node of the path. -/
def Precedes (t : Tree) (s : Nat) : List Nat → Prop
  | [] => True
  | p :: _ => s < (t.node p).highKey

theorem Strict.ascent {s x : Nat} (h : Strict c t g (some (x, s))) (hp : Pending t g 0 s x)
    (hm : m < t.count) (hlv : g.level x = g.level m) (hlow : g.low m ≤ s)
    (hspine : Spine t g k m path) (hprec : Precedes t s path) :
    ∃ (t' : Tree) (g' : Ghost Nat), Ascent c k t m path (some (x, s)) t' ∧ Strict c t' g' none := by
  induction path generalizing t g m s x with
  | nil =>
      obtain rfl : m = t.root := hspine
      have hinv := (h.inv.newRoot hp (createNewRoot_isNewRoot t t.root x s)).1
      exact ⟨_, _, .newRoot h.inv.root_lt h.parent_root, h.newRoot hp.lt_count hlv hinv⟩
  | cons p path ih =>
      rcases hspine with ⟨habove, hrest⟩
      have hb : Belongs t g p s x := habove.belongs hlv hlow hprec
      have hpl := habove.level_eq
      have hpc := habove.lt_count
      have hparm := h.parent_child p hpc habove.inner m habove.child
      have hparx := h.parent_up x s rfl p hb
      rcases insertIntoInner_cases h.inv hpc habove.inner hp (by omega) with
        ⟨t1, he, hins, hinv, _⟩ | ⟨t1, u, he, hd, hinv, hev, _, hpend⟩
      · exact ⟨t1, _, .parent hpc habove.inner habove.key_lt hprec hm hparm hp.lt_count hparx he
          .stop, h.insert hp.lt_count hb hins hinv⟩
      · have hup := h.tiled.up_range h.inv hp.lt_count hb hd
        have hsplit := h.split hp.lt_count hb hd hinv hev
        have hframe : ∀ q < t.count, g.level p < g.level q → t1.node q = t.node q := by
          intro q hq hlt
          refine hd.split.frame q ?_ hq.ne
          rintro rfl
          omega
        have hshrink : (t1.node p).highKey ≤ (t.node p).highKey := by
          rw [hd.split.left_highKey]
          exact hup.2.le
        have hspine1 := hrest.frame hpc hev hd.split.root hframe hshrink
        have hprec1 : Precedes t1 u path := by
          cases path with
          | nil => trivial
          | cons q path =>
              have hq := hrest.1
              have hqlv := hq.level_eq
              show u < (t1.node q).highKey
              rw [hframe q hq.lt_count (by omega)]
              exact lt_of_lt_of_le hup.2 hq.highKey_le
        have hlow1 := (hev.low_eq p hpc).le.trans hup.1.le
        have hlv1 := hev.level_eq p hpc
        rcases ih hsplit hpend (lt_of_lt_of_le hpc hev.count_le)
            ((Slots.store_self _ _ _).trans hlv1.symm) hlow1 hspine1 hprec1 with
          ⟨t', g', hasc, hstrict⟩
        exact ⟨t', g', .parent hpc habove.inner habove.key_lt hprec hm hparm hp.lt_count hparx he
          hasc, hstrict⟩

/-! ## Operations -/

/-- The leaf part of an insert and the way up. -/
theorem Strict.insertLeaf (h : Strict c t g none) (hm : m < t.count)
    (hl : (t.node m).isLeaf = true) (hlow : g.low m ≤ k) (hhigh : k < (t.node m).highKey)
    (hspine : Spine t g k m path) (v : Value) :
    ∃ (t' : Tree) (g' : Ghost Nat),
      Ascent c k (t.insertIntoLeaf c m k v).1 m path (t.insertIntoLeaf c m k v).2 t' ∧
        Strict c t' g' none := by
  have hi := h.inv.node m hm
  have hmem := Node.mem_liveKeys_iff hi.wellFormed.monotone k
  rcases insertIntoLeaf_cases c t m k v with ⟨_, he⟩ | ⟨hk, hf, he⟩ | ⟨hk, hf, he⟩
  · rw [he]
    exact ⟨t, g, .stop, h⟩
  · have hk' : k ∉ (t.node m).liveKeys := fun hc => hk (hmem.mp hc)
    have hw : IsWrite t (t.setNode m ((t.node m).insertValue ((t.node m).index k) v k)) m :=
      isWrite_setNode rfl rfl rfl
    have hinv := h.inv.writeLeaf hm hw hl
      (by rw [setNode_node_self]; exact hi.wellFormed.insertValue hl hf hk' v)
      (by
        rw [setNode_node_self, Node.entries_insertValue hl hi.wellFormed.monotone k v]
        exact NodeInv.insertNew_range h.inv hm hl hlow hhigh v)
    rw [he]
    exact ⟨_, g, .stop, h.writeLeaf hinv hm hw hl rfl rfl⟩
  · rcases splitLeafNode_spec h.inv 0 hm hl hlow hhigh v (fun hc => hk (hmem.mp hc)) hf with
      ⟨hd, _⟩
    have hstrict := h.splitLeaf hm hl hd (by rw [splitLeafNode_eq]; rfl)
      (by rw [splitLeafNode_eq]; rfl)
    have hleaf := hi.leaf_iff.mp hl
    have hframe : ∀ q < t.count, g.level m < g.level q →
        (t.splitLeafNode c m k v).1.node q = t.node q := by
      intro q hq hlt
      refine hd.split.frame q ?_ hq.ne
      rintro rfl
      omega
    have hshrink : ((t.splitLeafNode c m k v).1.node m).highKey ≤ (t.node m).highKey := by
      rw [hd.split.left_highKey]
      exact hd.lt_highKey.le
    have hspine1 := hspine.frame hm hd.evolves hd.split.root hframe hshrink
    have hprec : Precedes (t.splitLeafNode c m k v).1
        (((t.splitLeafNode c m k v).1.node t.count).keys 0) path := by
      cases path with
      | nil => trivial
      | cons p path =>
          have hp := hspine.1
          have hplv := hp.level_eq
          show _ < ((t.splitLeafNode c m k v).1.node p).highKey
          rw [hframe p hp.lt_count (by omega)]
          exact lt_of_lt_of_le hd.lt_highKey hp.highKey_le
    have hlow1 := hd.evolves.low_eq m hm
    have hlow2 := hd.low_lt
    rw [he]
    exact hstrict.ascent hd.pending (lt_of_lt_of_le hm hd.evolves.count_le)
      ((Slots.store_self _ _ _).trans (hd.evolves.level_eq m hm).symm) (by omega) hspine1 hprec

/-- Every operation on a key below the largest one can be done, and keeps the structure. -/
theorem Strict.serial (h : Strict c t g none) (o : Op) (hk : o.key < maxKey) :
    ∃ (t' : Tree) (r : Value) (g' : Ghost Nat), Serial c t o t' r ∧ Strict c t' g' none := by
  rcases h.descent hk with ⟨m, path, hd, hm, hl, hlow, hhigh, hspine⟩
  cases o with
  | insert k v =>
      rcases h.insertLeaf hm hl hlow hhigh hspine v with ⟨t', g', hasc, hstrict⟩
      exact ⟨t', 0, g', .insert hd hasc, hstrict⟩
  | update k v =>
      have hw : IsWrite t (t.setNode m ((t.node m).updateValue c k v)) m := by
        refine isWrite_setNode ?_ ?_ ?_
        all_goals
          unfold Node.updateValue
          split <;> rfl
      have hinv := (updateValue_spec h.inv 0 hm hl hlow hhigh v).1
      exact ⟨_, 0, g, .update hd, h.writeLeaf hinv hm hw hl rfl rfl⟩
  | find k => exact ⟨t, _, g, .find hd, h⟩

end BLinkTree

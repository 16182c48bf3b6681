import BLinkTree.Optimistic.Coherence

/-! # Optimistic reads are sound

What `find` knows between two reads: as long as the version that it saw stands, the node is
what the tree says and the reads so far are reads of this one node. A read of a node in the
middle of a change tells nothing, but the comparison that follows it fails.
-/

namespace BLinkTree

/-! ## The search loops, read by read -/

namespace Node

variable {n : Node} {k : Nat}

/-- The loop of `child` at `[low, high]`. -/
structure ChildSearch (n : Node) (k : Nat) (low high : Int) : Prop where
  low_nonneg : 0 ≤ low
  low_le : low ≤ high + 1
  high_lt : high < n.size
  result : ∃ fuel : Nat, high - low + 1 ≤ fuel ∧
    (childLoop n.keys k fuel low high + 1).toNat = n.childSlot k

theorem childSearch_start (hsize : n.size < 2 ^ 14) (k : Nat) :
    n.ChildSearch k 0 (int16 (n.size - 1)) := by
  have h16 : int16 ((n.size : Int) - 1) = n.size - 1 := int16_of_mem (by omega) (by omega)
  exact ⟨by omega, by omega, by omega, n.size, by omega, rfl⟩

/-- One round. -/
theorem ChildSearch.step {low high : Int} (h : n.ChildSearch k low high)
    (hsize : n.size < 2 ^ 14) (hle : low ≤ high) :
    let mid := int16 ((low + high) / 2)
    if n.keys mid.toNat ≤ k then n.ChildSearch k (int16 (mid + 1)) high
    else n.ChildSearch k low (int16 (mid - 1)) := by
  have h0 := h.low_nonneg
  have hh := h.high_lt
  have hmid : int16 ((low + high) / 2) = (low + high) / 2 := int16_of_mem (by omega) (by omega)
  have hnext : int16 ((low + high) / 2 + 1) = (low + high) / 2 + 1 :=
    int16_of_mem (by omega) (by omega)
  have hprev : int16 ((low + high) / 2 - 1) = (low + high) / 2 - 1 :=
    int16_of_mem (by omega) (by omega)
  rcases h.result with ⟨fuel, hf, hr⟩
  obtain ⟨fuel, rfl⟩ : ∃ f, fuel = f + 1 := ⟨fuel - 1, by omega⟩
  simp only [childLoop, if_pos hle, hmid] at hr
  rw [hmid]
  dsimp only
  split
  next hk =>
    rw [if_pos hk] at hr
    rw [hnext] at hr ⊢
    exact ⟨by omega, by omega, hh, fuel, by omega, hr⟩
  next hk =>
    rw [if_neg hk] at hr
    rw [hprev] at hr ⊢
    exact ⟨h0, by omega, by omega, fuel, by omega, hr⟩

theorem ChildSearch.finish {low high : Int} (h : n.ChildSearch k low high) (hle : ¬ low ≤ high) :
    (high + 1).toNat = n.childSlot k := by
  rcases h.result with ⟨fuel, _, hr⟩
  cases fuel with
  | zero => exact hr
  | succ fuel =>
      simp only [childLoop, if_neg hle] at hr
      exact hr

/-- The loop of `index` at `len` slots from `first` on. -/
def IndexSearch (n : Node) (k first len : Nat) : Prop :=
  ∃ fuel, len ≤ fuel ∧ Slots.lowerBoundLoop n.keys k fuel first len = n.index k

theorem indexSearch_start (n : Node) (k : Nat) : n.IndexSearch k 0 n.size := ⟨n.size, le_rfl, rfl⟩

theorem IndexSearch.step {first len : Nat} (h : n.IndexSearch k first len) (hlen : len ≠ 0) :
    if n.keys (first + len / 2) < k then
      n.IndexSearch k (first + len / 2 + 1) (len - len / 2 - 1)
    else n.IndexSearch k first (len / 2) := by
  rcases h with ⟨fuel, hf, hr⟩
  obtain ⟨fuel, rfl⟩ : ∃ f, fuel = f + 1 := ⟨fuel - 1, by omega⟩
  simp only [Slots.lowerBoundLoop, if_neg hlen] at hr
  split
  next hk =>
    rw [if_pos hk] at hr
    exact ⟨fuel, by omega, hr⟩
  next hk =>
    rw [if_neg hk] at hr
    exact ⟨fuel, by omega, hr⟩

theorem IndexSearch.finish {first : Nat} (h : n.IndexSearch k first 0) : first = n.index k := by
  rcases h with ⟨fuel, _, hr⟩
  cases fuel with
  | zero => exact hr
  | succ fuel => exact hr

end Node

namespace Optimistic.Fields

open Interleaving VersionLock

variable {c : Capacity} {s s' : Shared} {a a' : Aux} {i j n v k : Nat}

/-! ## What a reader knows -/

/-- The call for key `k` has moved to node `n`. -/
structure At (s : Shared) (a : Aux) (k n : Nat) : Prop where
  key_lt : k < maxKey
  lt_count : n < s.tree.count
  low_le : a.ghost.low n ≤ k
  known : a.creator n = none

/-- The call is at a leaf. -/
structure AtLeaf (s : Shared) (a : Aux) (k n : Nat) : Prop extends At s a k n where
  isLeaf : (s.tree.node n).isLeaf = true

/-- The call saw version `v` of the node, and `P` is true of it as long as the version stands. -/
def Sees (s : Shared) (n v : Nat) (P : Node → Prop) : Prop :=
  Snapshot s.version n v (P (s.tree.node n))

/-- What `find` knows. It never follows a null pointer. -/
def Reads (c : Capacity) (s : Shared) (a : Aux) : Reader → Prop
  | .start k => k < maxKey
  | .locate k n => At s a k n
  | .inner k n v => At s a k n ∧ Sees s n v fun _ => True
  | .childSize k n v _ => At s a k n ∧ Sees s n v fun x => x.isLeaf = false
  | .childLoop k n v low high => At s a k n ∧
      Sees s n v fun x => x.isLeaf = false ∧ x.ChildSearch k low high
  | .childRead k n v m => At s a k n ∧ Sees s n v fun x => x.isLeaf = false ∧ x.child k = m
  | .leaf k n => AtLeaf s a k n
  | .highKey k n v => AtLeaf s a k n ∧ Sees s n v fun _ => True
  | .sibling k n v => AtLeaf s a k n ∧ Sees s n v fun x => x.highKey ≤ k
  | .right k n v => AtLeaf s a k n ∧ Sees s n v fun x => x.highKey ≤ k
  | .rightRead k n v r => AtLeaf s a k n ∧
      Sees s n v fun x => x.highKey ≤ k ∧ x.rightSibling = r
  | .again k n => AtLeaf s a k n
  | .indexSize k n v => AtLeaf s a k n ∧ Sees s n v fun x => k < x.highKey
  | .indexLoop k n v first len => AtLeaf s a k n ∧
      Sees s n v fun x => k < x.highKey ∧ x.IndexSearch k first len
  | .slot k n v j => AtLeaf s a k n ∧ Sees s n v fun x => k < x.highKey ∧ j = x.index k
  | .slotKey k n v j q => AtLeaf s a k n ∧
      Sees s n v fun x => k < x.highKey ∧ j = x.index k ∧ q = x.leafKey c j
  | .found k n v q r => AtLeaf s a k n ∧
      Sees s n v fun x => k < x.highKey ∧ q = x.leafKey c (x.index k) ∧ r = x.values (x.index k)
  | .done _ _ => True
  | .crashed _ => False

theorem At.disturbs (h : At s a k n) (hd : Disturbs j s a s' a') : At s' a' k n := by
  have hev := hd.interferes.evolves
  refine ⟨h.key_lt, lt_of_lt_of_le h.lt_count hev.count_le, ?_, hd.known n h.lt_count h.known⟩
  rw [hev.low_eq n h.lt_count]
  exact h.low_le

theorem AtLeaf.disturbs (h : AtLeaf s a k n) (hd : Disturbs j s a s' a') : AtLeaf s' a' k n := by
  refine ⟨h.toAt.disturbs hd, ?_⟩
  rw [hd.interferes.evolves.isLeaf_eq n h.lt_count]
  exact h.isLeaf

theorem Sees.disturbs {P : Node → Prop} (h : Sees s n v P) (hc : Coherent c s a)
    (hd : Disturbs j s a s' a') (hn : n < s.tree.count) : Sees s' n v P :=
  hd.interferes.snapshot hc.held hn h

/-- Other threads do not take away what a reader knows. -/
theorem Reads.disturbs {r : Reader} (h : Reads c s a r) (hc : Coherent c s a)
    (hd : Disturbs j s a s' a') : Reads c s' a' r := by
  cases r with
  | start k => exact h
  | locate k n => exact At.disturbs h hd
  | leaf k n => exact AtLeaf.disturbs h hd
  | again k n => exact AtLeaf.disturbs h hd
  | done k r => trivial
  | crashed k => exact h
  | inner k n v => exact ⟨h.1.disturbs hd, h.2.disturbs hc hd h.1.lt_count⟩
  | childSize k n v r => exact ⟨h.1.disturbs hd, h.2.disturbs hc hd h.1.lt_count⟩
  | childLoop k n v low high => exact ⟨h.1.disturbs hd, h.2.disturbs hc hd h.1.lt_count⟩
  | childRead k n v m => exact ⟨h.1.disturbs hd, h.2.disturbs hc hd h.1.lt_count⟩
  | highKey k n v => exact ⟨h.1.disturbs hd, h.2.disturbs hc hd h.1.lt_count⟩
  | sibling k n v => exact ⟨h.1.disturbs hd, h.2.disturbs hc hd h.1.lt_count⟩
  | right k n v => exact ⟨h.1.disturbs hd, h.2.disturbs hc hd h.1.lt_count⟩
  | rightRead k n v r => exact ⟨h.1.disturbs hd, h.2.disturbs hc hd h.1.lt_count⟩
  | indexSize k n v => exact ⟨h.1.disturbs hd, h.2.disturbs hc hd h.1.lt_count⟩
  | indexLoop k n v first len => exact ⟨h.1.disturbs hd, h.2.disturbs hc hd h.1.lt_count⟩
  | slot k n v j => exact ⟨h.1.disturbs hd, h.2.disturbs hc hd h.1.lt_count⟩
  | slotKey k n v j q => exact ⟨h.1.disturbs hd, h.2.disturbs hc hd h.1.lt_count⟩
  | found k n v q r => exact ⟨h.1.disturbs hd, h.2.disturbs hc hd h.1.lt_count⟩

/-! ## The reads -/

/-- The version of a free node. -/
theorem sees_of_readValid (h : s.readValid n = some v) : Sees s n v fun _ => True := by
  rcases VersionedTree.readValid_eq h with ⟨hfree, rfl⟩
  exact ⟨le_rfl, hfree, fun _ => trivial⟩

/-- As long as the version stands, the memory is read from the node of the tree. -/
theorem Sees.read {P Q : Node → Prop} (h : Sees s n v P) (hc : Coherent c s a) (hn : At s a k n)
    (hPQ : s.memory n = s.tree.node n → P (s.tree.node n) → Q (s.tree.node n)) : Sees s n v Q := by
  refine Snapshot.mono h fun he hP => hPQ ?_ hP
  have hfree : isLocked (s.version n) = false := by
    rw [he]
    exact h.free
  exact hc.clean n (hc.holder_of_free hfree) hn.known

theorem not_wraps {current : Nat} (hle : v ≤ current) (h : acquisitions current v < 2 ^ 30) :
    ¬ Wraps current v := by
  intro ⟨hv, hne⟩
  simp only [isValid, decide_eq_true_eq] at hv
  unfold acquisitions at h
  omega

/-- A comparison that succeeds: the node is free and all reads since were reads of it. -/
theorem Sees.of_isValid {P : Node → Prop} (h : Sees s n v P)
    (hacq : acquisitions (s.version n) v < 2 ^ 30) (hv : isValid (s.version n) v = true) :
    isLocked (s.version n) = false ∧ P (s.tree.node n) := by
  have hwrap := not_wraps h.le hacq
  have heq : s.version n = v := not_not.mp fun hne => hwrap ⟨hv, hne⟩
  refine ⟨?_, h.valid heq⟩
  rw [heq]
  exact h.free

/-- A pointer in a free node leads to a node that is in the tree. -/
theorem Coherent.known_of_leads (h : Coherent c s a) (hn : n < s.tree.count)
    (hknown : a.creator n = none) (hfree : isLocked (s.version n) = false) {m : Nat}
    (hl : Leads (s.tree.node n) m) : a.creator m = none := by
  cases hm : a.creator m with
  | none => rfl
  | some i =>
      rcases h.hidden n hn m i hl hm with ho | ho
      · exact absurd ((h.holder_of_free hfree).symm.trans ho) (by simp)
      · exact absurd (hknown.symm.trans ho) (by simp)

/-- A valid move down. -/
theorem At.child (h : At s a k n) (hc : Coherent c s a)
    (hfree : isLocked (s.version n) = false) (hl : (s.tree.node n).isLeaf = false) :
    ∃ m, (s.tree.node n).child k = some m ∧ At s a k m := by
  have hi := hc.inv.node n h.lt_count
  rcases hi.child hl h.low_le with ⟨m, hm, hlt, hlow, _⟩
  refine ⟨m, hm, h.key_lt, hlt, hlow, ?_⟩
  apply hc.known_of_leads h.lt_count h.known hfree
  have hsize : (s.tree.node n).size < 2 ^ 14 :=
    lt_of_le_of_lt hi.wellFormed.size_le ((s.tree.node n).capacity_lt c)
  have hmem := Node.child_mem_children hl hsize.le k
  rw [hm] at hmem
  exact Or.inr hmem

/-- A valid move to the right. -/
theorem AtLeaf.right (h : AtLeaf s a k n) (hc : Coherent c s a)
    (hfree : isLocked (s.version n) = false) (hh : (s.tree.node n).highKey ≤ k) :
    ∃ m, (s.tree.node n).rightSibling = some m ∧ AtLeaf s a k m := by
  rcases hc.inv.right_move h.lt_count h.key_lt hh with ⟨m, hm, hlt, hlow, _, hleaf⟩
  refine ⟨m, hm, ⟨h.key_lt, hlt, hlow, ?_⟩, hleaf.trans h.isLeaf⟩
  exact hc.known_of_leads h.lt_count h.known hfree (Or.inl hm)

/-- One read keeps what a reader knows. -/
theorem Reader.next_spec (h : Coherent c s a) {r r' : Reader} (hr : Reads c s a r)
    (hvalid : Valid s (.reader r) .go) (hs : r.next c s = some r') : Reads c s a r' := by
  cases r with
  | start k =>
      obtain rfl := Option.some.inj hs
      exact ⟨hr, h.root_lt, by rw [h.root_low]; exact Nat.zero_le k, h.root_creator⟩
  | locate k n =>
      rcases Option.map_eq_some_iff.mp hs with ⟨v, hv, rfl⟩
      exact ⟨hr, sees_of_readValid hv⟩
  | inner k n v =>
      rcases hr with ⟨hn, hsee⟩
      have hkind := h.kind n hn.lt_count hn.known
      simp only [Reader.next] at hs
      split at hs
      next hl =>
        obtain rfl := Option.some.inj hs
        exact ⟨hn, hkind.symm.trans hl⟩
      next hl =>
        obtain rfl := Option.some.inj hs
        refine ⟨hn, hsee.read h hn fun hm _ => ?_⟩
        rw [← hkind]
        simpa using hl
  | childSize k n v right =>
      rcases hr with ⟨hn, hsee⟩
      obtain rfl := Option.some.inj hs
      refine ⟨hn, hsee.read h hn fun hm hl => ⟨hl, ?_⟩⟩
      rw [hm]
      apply Node.childSearch_start
      have hw := (h.inv.node n hn.lt_count).wellFormed
      exact lt_of_le_of_lt hw.size_le ((s.tree.node n).capacity_lt c)
  | childLoop k n v low high =>
      rcases hr with ⟨hn, hsee⟩
      have hw := (h.inv.node n hn.lt_count).wellFormed
      have hsize := lt_of_le_of_lt hw.size_le ((s.tree.node n).capacity_lt c)
      simp only [Reader.next] at hs
      split at hs
      next hle =>
        split at hs
        next hk =>
          obtain rfl := Option.some.inj hs
          refine ⟨hn, hsee.read h hn fun hm hl => ⟨hl.1, ?_⟩⟩
          have hstep := hl.2.step hsize hle
          rw [hm] at hk
          exact (if_pos hk).mp hstep
        next hk =>
          obtain rfl := Option.some.inj hs
          refine ⟨hn, hsee.read h hn fun hm hl => ⟨hl.1, ?_⟩⟩
          have hstep := hl.2.step hsize hle
          rw [hm] at hk
          exact (if_neg hk).mp hstep
      next hle =>
        obtain rfl := Option.some.inj hs
        refine ⟨hn, hsee.read h hn fun hm hl => ⟨hl.1, ?_⟩⟩
        rw [hm, hl.2.finish hle]
        rfl
  | childRead k n v m =>
      rcases hr with ⟨hn, hsee⟩
      simp only [Reader.next] at hs
      split at hs
      next hv =>
        obtain rfl := Option.some.inj hs
        rcases hsee.of_isValid hvalid hv with ⟨hfree, hl, hm⟩
        rcases hn.child h hfree hl with ⟨m', hm', hat⟩
        rw [← hm, hm']
        exact hat
      next =>
        obtain rfl := Option.some.inj hs
        exact hn
  | leaf k n =>
      rcases Option.map_eq_some_iff.mp hs with ⟨v, hv, rfl⟩
      exact ⟨hr, sees_of_readValid hv⟩
  | highKey k n v =>
      rcases hr with ⟨hn, hsee⟩
      simp only [Reader.next] at hs
      split at hs
      next hk =>
        obtain rfl := Option.some.inj hs
        exact ⟨hn, hsee.read h hn.toAt fun hm _ => hm ▸ hk⟩
      next hk =>
        obtain rfl := Option.some.inj hs
        exact ⟨hn, hsee.read h hn.toAt fun hm _ => hm ▸ not_le.mp hk⟩
  | sibling k n v =>
      rcases hr with ⟨hn, hsee⟩
      simp only [Reader.next] at hs
      split at hs
      next hnone =>
        -- a node without a right sibling ends behind every key
        obtain rfl := Option.some.inj hs
        refine ⟨hn, hsee.read h hn.toAt fun hm _ => ?_⟩
        rw [hm] at hnone
        rw [(h.inv.node n hn.lt_count).right_none hnone]
        exact hn.key_lt
      next =>
        obtain rfl := Option.some.inj hs
        exact ⟨hn, hsee⟩
  | right k n v =>
      rcases hr with ⟨hn, hsee⟩
      obtain rfl := Option.some.inj hs
      exact ⟨hn, hsee.read h hn.toAt fun hm hk => ⟨hk, by rw [hm]⟩⟩
  | rightRead k n v r =>
      rcases hr with ⟨hn, hsee⟩
      simp only [Reader.next] at hs
      split at hs
      next hv =>
        obtain rfl := Option.some.inj hs
        rcases hsee.of_isValid hvalid hv with ⟨hfree, hk, hm⟩
        rcases hn.right h hfree hk with ⟨m', hm', hat⟩
        rw [← hm, hm']
        exact hat
      next =>
        obtain rfl := Option.some.inj hs
        exact hn
  | again k n =>
      rcases Option.map_eq_some_iff.mp hs with ⟨v, hv, rfl⟩
      exact ⟨hr, sees_of_readValid hv⟩
  | indexSize k n v =>
      rcases hr with ⟨hn, hsee⟩
      obtain rfl := Option.some.inj hs
      refine ⟨hn, hsee.read h hn.toAt fun hm hk => ⟨hk, ?_⟩⟩
      rw [hm]
      exact Node.indexSearch_start _ k
  | indexLoop k n v first len =>
      rcases hr with ⟨hn, hsee⟩
      simp only [Reader.next] at hs
      split at hs
      next hlen =>
        obtain rfl := Option.some.inj hs
        refine ⟨hn, hsee.read h hn.toAt fun _ hk => ⟨hk.1, ?_⟩⟩
        rw [hlen] at hk
        exact hk.2.finish
      next hlen =>
        split at hs
        next hk =>
          obtain rfl := Option.some.inj hs
          refine ⟨hn, hsee.read h hn.toAt fun hm hs => ⟨hs.1, ?_⟩⟩
          have hstep := hs.2.step hlen
          rw [hm] at hk
          exact (if_pos hk).mp hstep
        next hk =>
          obtain rfl := Option.some.inj hs
          refine ⟨hn, hsee.read h hn.toAt fun hm hs => ⟨hs.1, ?_⟩⟩
          have hstep := hs.2.step hlen
          rw [hm] at hk
          exact (if_neg hk).mp hstep
  | slot k n v j =>
      rcases hr with ⟨hn, hsee⟩
      obtain rfl := Option.some.inj hs
      exact ⟨hn, hsee.read h hn.toAt fun hm hj => ⟨hj.1, hj.2, by rw [hm]⟩⟩
  | slotKey k n v j q =>
      rcases hr with ⟨hn, hsee⟩
      obtain rfl := Option.some.inj hs
      refine ⟨hn, hsee.read h hn.toAt fun hm hj => ⟨hj.1, ?_, ?_⟩⟩
      · rw [← hj.2.1]
        exact hj.2.2
      · rw [hm, ← hj.2.1]
  | found k n v q r =>
      rcases hr with ⟨hn, hsee⟩
      simp only [Reader.next] at hs
      split at hs
      · obtain rfl := Option.some.inj hs
        trivial
      · obtain rfl := Option.some.inj hs
        exact hn
  | done k r => simp [Reader.next] at hs
  | crashed k => simp [Reader.next] at hs

/-! ## Whole runs -/

/-- What thread `i` knows. -/
def Local (c : Capacity) (i : Nat) (s : Shared) (a : Aux) : Pc → Prop
  | .idle => True
  | .reader r => Reads c s a r
  | .writer w => Knows s a i w

/-- The assertion of thread `i`. -/
structure Asserts (c : Capacity) (i : Nat) (s : Shared) (a : Aux) (pc : Pc) : Prop where
  owned : Owned a i pc
  knows : Local c i s a pc

theorem Asserts.disturbs {pc : Pc} (h : Asserts c i s a pc) (hc : Coherent c s a)
    (hd : Disturbs j s a s' a') (hij : i ≠ j) : Asserts c i s' a' pc := by
  refine ⟨h.owned.disturbs hd hij, ?_⟩
  have hk := h.knows
  cases pc with
  | idle => trivial
  | reader r => exact Reads.disturbs hk hc hd
  | writer w => exact Knows.disturbs hk hd hij

/-- What a step of a writer leaves to all threads. -/
theorem Stepped.asserts {f : Nat → Pc} {pc : Pc} (h : Stepped c j s a s' pc) (hc : Coherent c s a)
    (hA : ∀ i, Asserts c i s a (f i)) :
    ∃ a', Coherent c s' a' ∧ Asserts c j s' a' pc ∧ ∀ i, i ≠ j → Asserts c i s' a' (f i) := by
  rcases h with ⟨a', hc', hd, ho, hk⟩
  refine ⟨a', hc', ⟨ho, ?_⟩, fun i hi => (hA i).disturbs hc hd hi⟩
  cases pc with
  | idle => trivial
  | reader r => exact hk.elim
  | writer w => exact hk

/-- A node that nobody is creating. -/
theorem creator_of_known {w : World} (hA : ∀ i, Asserts c i w.shared a (w.thread i))
    (hj : (w.thread j).builds = none) (hknown : ∀ i, i ≠ j → (w.thread i).builds ≠ some n) :
    a.creator n = none := by
  cases hm : a.creator n with
  | none => rfl
  | some i =>
      have hb := (hA i).owned.builds n hm
      by_cases hij : i = j
      · rw [hij, hj] at hb
        exact absurd hb (by simp)
      · exact absurd hb (hknown i hij)

theorem Owned.idle {pc pc' : Pc} (h : Owned a i pc) (hpc : pc.holds = none)
    (hb : pc.builds = none) : Owned a i pc' := by
  refine ⟨fun n hn => ?_, fun n hn => ?_⟩
  · have hh := h.holds n hn
    rw [hpc] at hh
    exact absurd hh (by simp)
  · have hh := h.builds n hn
    rw [hb] at hh
    exact absurd hh (by simp)

/-- One step of any thread. -/
theorem next_asserts {w : World} {act : Act} {pc : Pc} {e : Option Unit}
    (hok : Careful w j act) (hs : next c w.shared (w.thread j) act = some (s', pc, e))
    (h : Coherent c w.shared a) (hA : ∀ i, Asserts c i w.shared a (w.thread i)) :
    ∃ a', Coherent c s' a' ∧ Asserts c j s' a' pc ∧
      ∀ i, i ≠ j → Asserts c i s' a' (w.thread i) := by
  rcases hok with ⟨hvalid, hapart⟩
  have hj := hA j
  have hknown : ∀ n, act = .acquire n → (w.thread j).builds = none → a.creator n = none := by
    intro n hact hb
    refine creator_of_known hA hb fun i hi => ?_
    have hi := hapart i hi
    rw [hact] at hi
    exact hi
  generalize hpc : w.thread j = pc₀ at hs hj hvalid hknown
  cases pc₀ with
  | idle =>
      cases act with
      | find k =>
          simp only [next, Option.some.injEq, Prod.mk.injEq] at hs
          rcases hs with ⟨rfl, rfl, _⟩
          exact ⟨a, h, ⟨hj.owned.idle rfl rfl, hvalid⟩, fun i _ => hA i⟩
      | acquire n =>
          simp only [next, Option.map_eq_some_iff, Prod.mk.injEq] at hs
          rcases hs with ⟨l, hl, rfl, rfl, _⟩
          have hstep := stepped_lock h hj.owned rfl rfl rfl hvalid (hknown n rfl rfl) hl
            (w := .acquired n) fun hacq => hacq
          exact hstep.asserts h hA
      | _ => simp [next] at hs
  | reader r =>
      cases act with
      | go =>
          cases hr : r.next c w.shared with
          | some r' =>
              have hs' : s' = w.shared ∧ pc = .reader r' := by
                cases r with
                | done k v => simp [Reader.next] at hr
                | _ =>
                    simp only [next, hr, Option.map_some, Option.some.injEq, Prod.mk.injEq] at hs
                    exact ⟨hs.1.symm, hs.2.1.symm⟩
              rcases hs' with ⟨rfl, rfl⟩
              exact ⟨a, h, ⟨hj.owned.idle rfl rfl, r.next_spec h hj.knows hvalid hr⟩,
                fun i _ => hA i⟩
          | none =>
              cases r with
              | done k v =>
                  simp only [next, Option.some.injEq, Prod.mk.injEq] at hs
                  rcases hs with ⟨rfl, rfl, _⟩
                  exact ⟨a, h, ⟨hj.owned.idle rfl rfl, trivial⟩, fun i _ => hA i⟩
              | _ => simp [next, hr] at hs
      | _ => simp [next] at hs
  | writer x =>
      simp only [next, Option.map_eq_some_iff, Prod.mk.injEq] at hs
      rcases hs with ⟨⟨s₁, pc₁⟩, hx, rfl, rfl, _⟩
      have hstep := x.next_spec h hj.owned hj.knows hvalid hknown hx
      exact hstep.asserts h hA

theorem coherent_init (c : Capacity) (raw : Nat → Memory) :
    Coherent c (init raw).shared
      { ghost := Ghost.initial Nat, holder := fun _ => none, creator := fun _ => none,
        rooter := none } := by
  refine ⟨inv_empty c raw, held_empty, fun _ _ => rfl, fun _ _ _ => rfl, fun _ _ _ => rfl,
    fun _ _ => ⟨rfl, rfl⟩, fun _ _ hc => absurd hc (by simp), ?_, Nat.one_pos, rfl, rfl,
    fun _ => rfl, by simp [init]⟩
  exact fun _ _ _ _ _ hc => absurd hc (by simp)

/-- The invariant of every run. -/
theorem coherent {raw : Nat → Memory} {w : World}
    (h : Reachable (next c) Careful (init raw) w) :
    ∃ a, Coherent c w.shared a ∧ ∀ i, Asserts c i w.shared a (w.thread i) := by
  refine h.asserts (I := Coherent c) (A := Asserts c) (coherent_init c raw) (fun i => ?_) ?_
  · exact ⟨⟨fun _ hn => absurd hn (by simp), fun _ hn => absurd hn (by simp)⟩, trivial⟩
  · exact fun w i act s x e a hok hs hI hA => next_asserts hok hs hI hA

/-- Where no thread writes, the memory is the tree. -/
theorem memory_eq_tree {raw : Nat → Memory} {w : World}
    (h : Reachable (next c) Careful (init raw) w) (hquiet : ∀ i x, w.thread i ≠ .writer x) :
    w.shared.memory = w.shared.tree.node := by
  rcases coherent h with ⟨a, hc, hA⟩
  have hown : ∀ i n, ¬ a.Owns i n := by
    intro i n hn
    have ho := (hA i).owned
    cases hpc : w.thread i with
    | writer x => exact hquiet i x hpc
    | idle =>
        rw [hpc] at ho
        rcases hn with hn | hn
        · exact absurd (ho.holds n hn) (by simp [Pc.holds])
        · exact absurd (ho.builds n hn) (by simp [Pc.builds])
    | reader r =>
        rw [hpc] at ho
        rcases hn with hn | hn
        · exact absurd (ho.holds n hn) (by simp [Pc.holds])
        · exact absurd (ho.builds n hn) (by simp [Pc.builds])
  funext n
  apply hc.clean n
  · exact Option.eq_none_iff_forall_ne_some.mpr fun i hn => hown i n (Or.inl hn)
  · exact Option.eq_none_iff_forall_ne_some.mpr fun i hn => hown i n (Or.inr hn)

/-! ## The result of a call -/

/-- Thread `i` is in the call `find(k)`. -/
def InCall (i k : Nat) (w : World) : Prop :=
  match w.thread i with
  | .reader r => r.key = k
  | _ => False

instance (i k : Nat) (w : World) : Decidable (InCall i k w) := by
  unfold InCall
  split <;> infer_instance

/-- Key `k` has the value `v`, and a leaf in memory that no one holds has the binding. -/
structure Binds (w : World) (k : Nat) (v : Value) : Prop where
  content : OrderedMap.get? k w.shared.tree.content = some v
  memory : ∃ n, isLocked (w.shared.version n) = false ∧ (k, v) ∈ (w.shared.memory n).entries

theorem Writer.next_ne_reader {x : Writer} {act : Act} {r : Reader} :
    x.next c s act ≠ some (s', .reader r) := by
  intro h
  cases x with
  | acquired n => cases act <;> simp [Writer.next] at h
  | writing n rest up =>
      cases act with
      | go =>
          cases rest with
          | nil =>
              rcases up with _ | ⟨y, k⟩ <;> simp [Writer.next, resume] at h
          | cons w rest => simp [Writer.next] at h
      | _ => simp [Writer.next] at h
  | carrying y k => cases act <;> simp [Writer.next] at h
  | parent n y k => cases act <;> simp [Writer.next] at h
  | rooting root rest => cases act <;> cases rest <;> simp [Writer.next] at h
  | rooted => cases act <;> simp [Writer.next] at h

theorem follow_ne_done {q : Nat} {f : Nat → Reader} {m : Option Nat} {r : Value}
    (hf : ∀ n, f n ≠ .done k r) : follow q f m ≠ .done k r := by
  cases m with
  | none => simp [follow]
  | some n => exact hf n

/-- A result comes from a comparison that succeeds. -/
theorem Reader.next_done {x : Reader} {r : Value} (h : x.next c s = some (.done k r)) :
    ∃ n v q u, x = .found k n v q u ∧ isValid (s.version n) v = true ∧
      r = if q = k then u else 0 := by
  cases x with
  | found q n v f u =>
      simp only [Reader.next] at h
      split at h
      next hv =>
        simp only [Option.some.injEq, Reader.done.injEq] at h
        rcases h with ⟨rfl, rfl⟩
        exact ⟨n, v, f, u, rfl, hv, rfl⟩
      next => simp at h
  | childRead q n v m =>
      simp only [Reader.next] at h
      split at h
      · exact absurd (Option.some.inj h) (follow_ne_done (by simp))
      · simp at h
  | rightRead q n v m =>
      simp only [Reader.next] at h
      split at h
      · exact absurd (Option.some.inj h) (follow_ne_done (by simp))
      · simp at h
  | childLoop q n v low high =>
      simp only [Reader.next] at h
      split at h
      · split at h <;> simp at h
      · simp at h
  | indexLoop q n v first len =>
      simp only [Reader.next] at h
      split at h
      · simp at h
      · split at h <;> simp at h
  | inner q n v =>
      simp only [Reader.next] at h
      split at h <;> simp at h
  | highKey q n v =>
      simp only [Reader.next] at h
      split at h <;> simp at h
  | sibling q n v =>
      simp only [Reader.next] at h
      split at h <;> simp at h
  | _ => simp [Reader.next] at h

theorem next_done {pc : Pc} {act : Act} {e : Option Unit} {r : Value}
    (h : next c s pc act = some (s', .reader (.done k r), e)) :
    ∃ n v q u, pc = .reader (.found k n v q u) ∧ act = .go ∧ isValid (s.version n) v = true ∧
      r = if q = k then u else 0 := by
  cases pc with
  | idle => cases act <;> simp [next] at h
  | writer x =>
      simp only [next, Option.map_eq_some_iff, Prod.mk.injEq] at h
      rcases h with ⟨⟨s₁, pc₁⟩, hx, _, hpc, _⟩
      obtain rfl : pc₁ = .reader (.done k r) := hpc
      exact absurd hx Writer.next_ne_reader
  | reader x =>
      cases act with
      | go =>
          have hx : x.next c s = some (.done k r) := by
            cases x with
            | done q u => simp [next] at h
            | _ =>
                simp only [next, Option.map_eq_some_iff, Prod.mk.injEq] at h
                rcases h with ⟨x', hx, _, hpc, _⟩
                rw [hx, Pc.reader.inj hpc]
          rcases Reader.next_done hx with ⟨n, v, q, u, rfl, hv, hr⟩
          exact ⟨n, v, q, u, rfl, rfl, hv, hr⟩
      | _ => simp [next] at h

/-- The comparison behind the reads of a leaf: if it succeeds and the key is bound, they found
its value. -/
theorem binds_of_found {w : World} {q : Nat} {u : Value} (hc : Coherent c w.shared a)
    (hr : Reads c w.shared a (.found k n v q u))
    (hacq : acquisitions (w.shared.version n) v < 2 ^ 30)
    (hv : isValid (w.shared.version n) v = true)
    (hbound : ∃ v, OrderedMap.get? k w.shared.tree.content = some v) :
    Binds w k (if q = k then u else 0) := by
  rcases hr with ⟨hn, hsee⟩
  rcases hsee.of_isValid hacq hv with ⟨hfree, hhigh, hq, hu⟩
  rcases hbound with ⟨x, hx⟩
  have hfind : (if q = k then u else 0) = x := by
    rw [hq, hu]
    exact findValue_spec hc.inv hn.lt_count hn.isLeaf hn.low_le hhigh x hx
  rw [hfind]
  refine ⟨hx, n, hfree, ?_⟩
  rw [hc.clean n (hc.holder_of_free hfree) hn.known]
  rw [hc.inv.get?_content hn.lt_count hn.isLeaf hn.low_le hhigh] at hx
  exact OrderedMap.mem_of_get? hx

/-- The node to which a call has moved. -/
theorem Reads.at_node {x : Reader} (h : Reads c s a x) (hn : x.node = some n) : At s a x.key n := by
  cases x with
  | start k => simp [Reader.node] at hn
  | done k r => simp [Reader.node] at hn
  | crashed k => simp [Reader.node] at hn
  | locate k m =>
      obtain rfl : m = n := Option.some.inj hn
      exact h
  | leaf k m =>
      obtain rfl : m = n := Option.some.inj hn
      exact AtLeaf.toAt h
  | again k m =>
      obtain rfl : m = n := Option.some.inj hn
      exact AtLeaf.toAt h
  | inner k m v =>
      obtain rfl : m = n := Option.some.inj hn
      exact h.1
  | childSize k m v r =>
      obtain rfl : m = n := Option.some.inj hn
      exact h.1
  | childLoop k m v low high =>
      obtain rfl : m = n := Option.some.inj hn
      exact h.1
  | childRead k m v r =>
      obtain rfl : m = n := Option.some.inj hn
      exact h.1
  | _ =>
      obtain rfl := Option.some.inj hn
      exact h.1.toAt

theorem reads_of_reachable {raw : Nat → Memory} {w : World} {x : Reader}
    (h : Reachable (next c) Careful (init raw) w) (hx : w.thread i = .reader x) :
    ∃ a, Coherent c w.shared a ∧ Reads c w.shared a x := by
  rcases coherent h with ⟨a, hc, hA⟩
  have hi := (hA i).knows
  rw [hx] at hi
  exact ⟨a, hc, hi⟩

/-- The result of a call is the value of its key in one of the worlds of the call. -/
theorem binds_of_visits {raw : Nat → Memory} {w₀ w : World} {ws : List World} {r : Value}
    (h₀ : Reachable (next c) Careful (init raw) w₀) (hstart : w₀.thread i = .reader (.start k))
    (hrun : Visits (next c) Careful w₀ ws)
    (hbound : ∀ w' ∈ ws, ∃ v, OrderedMap.get? k w'.shared.tree.content = some v)
    (hw : ws.head? = some w) (hdone : w.thread i = .reader (.done k r)) :
    ∃ w' ∈ ws, Binds w' k r := by
  induction hrun generalizing w with
  | start =>
      obtain rfl : w₀ = w := by simpa using hw
      rw [hstart] at hdone
      simp at hdone
  | @move w₁ w₂ ws j act hrun hok hs ih =>
      obtain rfl : w₂ = w := by simpa using hw
      have hreach := hrun.reachable h₀ w₁ (List.mem_cons_self ..)
      have hrest : ∀ w' ∈ w₁ :: ws, ∃ v, OrderedMap.get? k w'.shared.tree.content = some v :=
        fun w' hw' => hbound w' (List.mem_cons_of_mem _ hw')
      rcases step_eq_some hs with ⟨s, pc, e, hp, rfl⟩
      by_cases hij : i = j
      · -- the step is the comparison of the call
        subst hij
        have hpc : pc = .reader (.done k r) := by simpa using hdone
        rw [hpc] at hp
        rcases next_done hp with ⟨n, v, q, u, hfound, rfl, hv, rfl⟩
        rcases reads_of_reachable hreach hfound with ⟨a, hc, hr⟩
        have hvalid := hok.1
        rw [hfound] at hvalid
        exact ⟨w₁, by simp, binds_of_found hc hr hvalid hv (hrest w₁ (List.mem_cons_self ..))⟩
      · have hstay : w₁.thread i = .reader (.done k r) := by
          rw [← hdone]
          exact (Function.update_of_ne hij _ _).symm
        rcases ih hrest rfl hstay with ⟨w', hmem, hb⟩
        exact ⟨w', List.mem_cons_of_mem _ hmem, hb⟩

/-- In every run of writers, a call `find(k)` moves to nodes that start no later than `k` only
and follows no null pointer. If `k` is bound during the whole call and the call returns `r`,
then `k` had the value `r` in one of the worlds of the call, that of the last comparison. -/
theorem optimistic_reads_sound (c : Capacity) (raw : Nat → Memory) (w₀ w : World)
    (ws : List World) (i k : Nat) (h₀ : Reachable (next c) Careful (init raw) w₀)
    (hstart : w₀.thread i = .reader (.start k))
    (hrun : Visits (next c) Careful w₀ (w :: ws)) (hcall : ∀ w' ∈ w :: ws, InCall i k w') :
    (∀ w' ∈ w :: ws, ∀ x n, w'.thread i = .reader x → x.node = some n →
      n < w'.shared.tree.count ∧ w'.shared.tree.lowKey n ≤ k) ∧
    (∀ w' ∈ w :: ws, w'.thread i ≠ .reader (.crashed k)) ∧
    ((∀ w' ∈ w :: ws, ∃ v, OrderedMap.get? k w'.shared.tree.content = some v) →
      ∀ r, w.thread i = .reader (.done k r) → ∃ w' ∈ w :: ws, Binds w' k r) := by
  refine ⟨?_, ?_, ?_⟩
  · intro w' hw' x n hx hn
    rcases reads_of_reachable (hrun.reachable h₀ w' hw') hx with ⟨a, hc, hr⟩
    have hat := hr.at_node hn
    have hkey : x.key = k := by
      have hin := hcall w' hw'
      unfold InCall at hin
      rw [hx] at hin
      exact hin
    rw [hc.inv.lowKey_eq hat.lt_count, ← hkey]
    exact ⟨hat.lt_count, hat.low_le⟩
  · intro w' hw' hx
    rcases reads_of_reachable (hrun.reachable h₀ w' hw') hx with ⟨a, _, hr⟩
    exact hr
  · intro hbound r hdone
    exact binds_of_visits h₀ hstart hrun hbound rfl hdone

/-- A thread inserts key 5, and a `find` of it is called. -/
def storedFive : List (Nat × Act) :=
  [(1, .acquire 0), (1, .insert 5 50)] ++ List.replicate 4 (1, .go) ++ [(0, .find 5)]

/-- The value is updated while the call searches the leaf. The call reads the new value before
the writer releases the leaf, so its first comparison fails. -/
def updatedFive : List (Nat × Act) :=
  List.replicate 6 (0, .go) ++ [(1, .acquire 0), (1, .update 5 51)] ++ List.replicate 3 (0, .go) ++
    [(1, .go)] ++ List.replicate 2 (0, .go) ++ [(1, .go)] ++ List.replicate 8 (0, .go)

theorem optimistic_reads_sound_update :
    ∃ w₀ w ws, w₀.thread 0 = .reader (.start 5) ∧
      Visits (next .smallest) Careful w₀ (w :: ws) ∧ w.thread 0 = .reader (.done 5 51) ∧
      ∃ w' ∈ w :: ws, Binds w' 5 51 := by
  have hall : ((run (next .smallest) (ApartBelow Valid Known 2) (init fun _ => .zero)
      storedFive).bind fun w₀ => (worlds (next .smallest) (ApartBelow Valid Known 2) [] w₀
        updatedFive).map fun ws => (w₀.thread 0, ws.head?.map fun w => w.thread 0,
          ws.all fun w => decide (InCall 0 5 w),
          ws.all fun w => (OrderedMap.get? 5 w.shared.tree.content).isSome)) =
      some (.reader (.start 5), some (.reader (.done 5 51)), true, true) := by decide
  rcases Option.bind_eq_some_iff.mp hall with ⟨w₀, hw₀, hrest⟩
  rcases Option.map_eq_some_iff.mp hrest with ⟨ws, hws, hstate⟩
  simp only [Prod.mk.injEq, List.all_eq_true, decide_eq_true_eq, Option.isSome_iff_exists] at hstate
  rcases hstate with ⟨hstart, hdone, hcall, hbound⟩
  have hidle : ∀ j, 2 ≤ j → w₀.thread j = .idle := by
    intro j hj
    have hstay : ∀ e ∈ storedFive, e.1 ≠ j := by
      have hlt : ∀ e ∈ storedFive, e.1 < 2 := by decide
      exact fun e he => (lt_of_lt_of_le (hlt e he) hj).ne
    exact run_thread_of_notMem hstay hw₀
  have hknown : ∀ s pc a, Known s pc a .idle := by
    intro s pc a
    cases a with
    | acquire n => exact fun h => absurd h (by simp [Pc.builds])
    | _ => trivial
  have hreach : Reachable (next .smallest) Careful (init fun _ => .zero) w₀ :=
    Reachable.of_run_apart .idle hknown (fun _ _ => rfl) hw₀
  have hrun : Visits (next .smallest) Careful w₀ ws :=
    Visits.of_worlds_apart .idle hknown hidle .start hws
  cases ws with
  | nil => simp at hdone
  | cons w ws =>
      have hdone : w.thread 0 = .reader (.done 5 51) := by simpa using hdone
      rcases optimistic_reads_sound .smallest _ w₀ w ws 0 5 hreach hstart hrun hcall with
        ⟨_, _, hsound⟩
      exact ⟨w₀, w, ws, hstart, hrun, hdone, hsound hbound 51 hdone⟩

end Optimistic.Fields

end BLinkTree

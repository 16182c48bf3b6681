import BLinkTree.Latched.ReadWrite
import BLinkTree.Latched.Linearizable
import BLinkTree.Versions

/-! # Writes behind `lock_upgrade`

The upgraded latch excludes other writers, so what a thread has read stays true from its
upgrade on. Between the reading and the upgrade other threads that read the same node may
write it first. The run is right as long as no such write moves the key, the separator
key or the slot that the waiting thread has found.
-/

namespace BLinkTree.Latched.ReadWrite

open Linearization Interleaving UpgradeLock

variable {c : Capacity} {t t' : Tree} {g g' : Ghost Nat} {s s' : LatchedTree}
  {l l' : Latches Nat} {i j n : Nat} {w w' : Work}

/-- The node still is what the thread has found when it read it. An update whose slot lies
behind the keys has compared a value. -/
def Work.Fits (c : Capacity) (node : Node) : Work → Prop
  | leaf k _ _ _ => k < node.highKey
  | slot k _ _ index =>
      k < node.highKey ∧ node.index k = index ∧ (index < c.maxItems → node.keys index = k)
  | parent _ _ _ k _ => k < node.highKey

/-- What the thread knows whatever the others do. -/
def Located (t : Tree) (g : Ghost Nat) (i : Nat) : Work → Prop
  | .leaf k v path n => Latched.Holds t g i (.leaf (.insert k v) path n)
  | .slot k v n _ => Latched.Holds t g i (.leaf (.update k v) [] n)
  | .parent o path n k x => Latched.Holds t g i (.parent o path n k x)

/-- What a thread knows. -/
def Holds (c : Capacity) (s : LatchedTree) (l : Latches Nat) (i : Nat) : Pc → Prop
  | .base pc => Latched.Holds s.tree l.ghost i pc
  | .backOff _ pc => Latched.Holds s.tree l.ghost i pc
  | .shared pc => Latched.Holds s.tree l.ghost i pc
  | .unlockShared _ pc => Latched.Holds s.tree l.ghost i pc
  | .upgrade w => Located s.tree l.ghost i w ∧ w.Fits c (s.tree.node w.node)
  | .write w => (Located s.tree l.ghost i w ∧ w.Fits c (s.tree.node w.node)) ∧
      l.holder w.node = some i
  | .unlock n pc => Latched.Holds s.tree l.ghost i pc ∧ l.holder n = some i

theorem Located.evolves (h : Located t g j w) (he : Evolves i t g t' g') (hj : j ≠ i) :
    Located t' g' j w := by
  cases w with
  | leaf k v path n =>
      have hn : Latched.Holds t g j (.leaf (.insert k v) path n) := h
      exact hn.evolves he hj
  | slot k v n index =>
      have hn : Latched.Holds t g j (.leaf (.update k v) [] n) := h
      exact hn.evolves he hj
  | parent o path n k x =>
      have hn : Latched.Holds t g j (.parent o path n k x) := h
      exact hn.evolves he hj

theorem Located.lt_count (h : Located t g i w) : w.node < t.count := by
  cases w with
  | leaf k v path n => exact h.2.1.lt_count
  | slot k v n index => exact h.2.1.lt_count
  | parent o path n k x => exact h.1

/-! ## Writes and what the others have found -/

theorem doWork_frame {pc : Latched.Pc} {e : Option (Event Op Value)} {m : Nat}
    (h : doWork c t w = some (t', pc, e)) (hm : m < t.count) (hmn : m ≠ w.node) :
    t'.node m = t.node m := by
  cases w with
  | leaf k v path n =>
      simp only [doWork, Option.some.injEq, Prod.mk.injEq] at h
      rw [← h.1]
      exact insertIntoLeaf_frame hm hmn
  | slot k v n index =>
      simp only [doWork, Option.some.injEq, Prod.mk.injEq] at h
      rw [← h.1]
      exact setNode_node_of_ne t _ hmn
  | parent o path n k x =>
      simp only [doWork, Option.map_eq_some_iff, Prod.mk.injEq] at h
      rcases h with ⟨r, hr, rfl, _⟩
      exact insertIntoInner_frame hr hm hmn

/-- A slot of a leaf that holds a key is where the key is searched. -/
theorem slot_of_getElem? {nd : Node} (hw : nd.WellFormed c) (hl : nd.isLeaf = true) {q index : Nat}
    {u : Value} (h : nd.entries[index]? = some (q, u)) :
    nd.index q = index ∧ nd.keys index = q := by
  rw [Node.entries_of_leaf hl, Slots.getElem?_pairs] at h
  split at h
  next hi =>
    simp only [Option.some.injEq, Prod.mk.injEq] at h
    rcases h with ⟨rfl, _⟩
    exact ⟨hw.eq_index hi, rfl⟩
  · simp at h

/-- The slots in front of the place of a new key keep their bindings. -/
theorem getElem?_insertNew {nd : Node} (hw : nd.WellFormed c) (hl : nd.isLeaf = true)
    {k index : Nat} (v : Value) (hi : index < nd.index k) :
    (OrderedMap.insertNew k v nd.entries)[index]? = some (nd.keys index, nd.values index) := by
  have hle := nd.index_le k
  rw [← Node.entries_insertValue hl hw.monotone, Node.entries_of_leaf (by exact hl),
    Slots.getElem?_pairs, if_pos (by show index < nd.size + 1; omega)]
  simp only [Node.insertValue, Slots.insertAt_of_lt _ _ hi]

/-- An insert into the leaf of a waiting `update` that does not displace its slot. -/
theorem insertIntoLeaf_slot (h : Inv c t g) (hn : n < t.count) (hl : (t.node n).isLeaf = true)
    {k q index : Nat} (hlow : g.low n ≤ k) (hhigh : k < (t.node n).highKey) (v : Value)
    (hq : (t.node n).index q = index ∧ (index < c.maxItems → (t.node n).keys index = q))
    (hnot : ¬ Displaces c t k v n q index) :
    ((t.insertIntoLeaf c n k v).1.node n).index q = index ∧
      (index < c.maxItems → ((t.insertIntoLeaf c n k v).1.node n).keys index = q) := by
  have hw := (h.node n hn).wellFormed
  have hmem := Node.mem_liveKeys_iff hw.monotone k
  -- a slot in front of the place of the new key is live
  have hkey : index < (t.node n).index k → (t.node n).keys index = q := fun hi =>
    hq.2 (lt_of_lt_of_le hi (((t.node n).index_le k).trans (hw.size_le_maxItems hl)))
  rcases insertIntoLeaf_cases c t n k v with ⟨hk, he⟩ | ⟨hk, hf, he⟩ | ⟨hk, hf, he⟩
  · rw [he]
    exact hq
  · have hi : index < (t.node n).index k := not_le.mp fun hle => hnot ⟨hk, Or.inl hle⟩
    have hent := getElem?_insertNew hw hl v hi
    rw [← Node.entries_insertValue hl hw.monotone, hkey hi] at hent
    rw [he, setNode_node_self]
    exact (slot_of_getElem? (hw.insertValue hl hf (mt hmem.mp hk) v) hl hent).imp_right
      fun hq _ => hq
  · have hi : index < (t.node n).index k := not_le.mp fun hle => hnot ⟨hk, Or.inl hle⟩
    have hlt : q < (t.leafHalves c n k v).2.keys 0 :=
      not_le.mp fun hle => hnot ⟨hk, Or.inr ⟨hf, hle⟩⟩
    have hsize : (t.node n).size = c.maxItems := by
      rw [(h.node n hn).size_eq_of_full hf]
      simp [Node.capacity, hl]
    have hk' : k ∉ (t.node n).entries.map Prod.fst := by
      rw [← Node.liveKeys_of_leaf hl]
      exact mt hmem.mp hk
    have hcut := leafHalves_spec v hl hw hsize (mt hmem.mp hk)
    have hsorted : OrderedMap.Sorted (OrderedMap.insertNew k v (t.node n).entries) :=
      (h.entries_sorted hn).insertNew hk'
    have hranges := (LeafCut.ranges hcut hsorted
      (NodeInv.insertNew_range h hn hl hlow hhigh v)).2.2.2
    have hent := getElem?_insertNew hw hl v hi
    rw [hkey hi, hcut.cut] at hent
    have hleft : index < (t.leafHalves c n k v).1.entries.length := by
      by_contra hge
      rw [List.getElem?_append_right (not_lt.mp hge)] at hent
      have := (hranges _ (List.mem_of_getElem? hent)).1
      omega
    rw [List.getElem?_append_left hleft] at hent
    rw [he, splitLeafNode_left hn]
    exact (slot_of_getElem? (LeafCut.wellFormed hcut hsorted).1 hcut.left_isLeaf hent).imp_right
      fun hq _ => hq

/-- `insert_into_inner` cuts a key off only by a split. -/
theorem insertIntoInner_below (hn : n < t.count) {k x q : Nat} {up : Option (Nat × Nat)}
    (h : t.insertIntoInner c n k x = some (t', up)) (hq : q < (t.node n).highKey)
    (hcut : ¬ ((t.node n).isFull c = true ∧ (t.innerHalves c n k x).2.2 ≤ q)) :
    q < (t'.node n).highKey := by
  simp only [Tree.insertIntoInner] at h
  split at h
  next hf =>
    simp only [Option.some.injEq, Prod.mk.injEq] at h
    rw [← h.1, setNode_node_self]
    exact hq
  next hf =>
    rw [splitInnerNode_eq, Option.map_map, Option.map_eq_some_iff] at h
    rcases h with ⟨t1, hset, heq⟩
    simp only [Function.comp_apply, Prod.mk.injEq] at heq
    have hleft : (t.innerBase c n k x).node n = t.innerLeft c n k x := by
      simp [Tree.innerBase, Slots.store, hn.ne]
    rw [← heq.1, setParents_node hset, hleft]
    exact not_le.mp fun hle => hcut ⟨by simpa using hf, hle⟩

/-- A write keeps what a waiting thread has found, unless it disturbs it. -/
theorem doWork_fits (h : Inv c t g) {pc : Latched.Pc} {e : Option (Event Op Value)}
    (hw : Located t g i w) (hfit : w.Fits c (t.node w.node))
    (hx : doWork c t w = some (t', pc, e)) (hw' : Located t g j w')
    (hfit' : w'.Fits c (t.node w'.node)) (hnot : ¬ Disturbs c t w w') :
    w'.Fits c (t'.node w'.node) := by
  by_cases hnode : w'.node = w.node
  · cases w with
    | leaf k v path n =>
        simp only [doWork, Option.some.injEq, Prod.mk.injEq] at hx
        rcases hw with ⟨_, hr, hl, _⟩
        cases w' with
        | leaf q u path' m =>
            obtain rfl : m = n := hnode
            rw [← hx.1]
            exact insertIntoLeaf_below hr.lt_count hfit' fun _ hcut => hnot ⟨rfl, hcut⟩
        | slot q u m index =>
            obtain rfl : m = n := hnode
            rw [← hx.1]
            refine ⟨insertIntoLeaf_below hr.lt_count hfit'.1 fun _ hcut => hnot ⟨rfl, hcut.1,
              Or.inr hcut.2⟩, ?_⟩
            exact insertIntoLeaf_slot h hr.lt_count hl hr.low_le hfit v hfit'.2
              fun hd => hnot ⟨rfl, hd⟩
        | parent o path' m q x =>
            obtain rfl : m = n := hnode
            rw [hw'.2.1] at hl
            exact absurd hl (by decide)
    | slot k v n index =>
        simp only [doWork, Option.some.injEq, Prod.mk.injEq] at hx
        rw [← hx.1, hnode]
        show Work.Fits c ((t.setNode n _).node n) w'
        rw [setNode_node_self]
        rw [hnode] at hfit'
        cases w' <;> exact hfit'
    | parent o path n k x =>
        simp only [doWork, Option.map_eq_some_iff, Prod.mk.injEq] at hx
        rcases hx with ⟨⟨t1, up⟩, hins, rfl, _⟩
        have hl := hw.2.1
        cases w' with
        | leaf q u path' m =>
            obtain rfl : m = n := hnode
            rw [hw'.2.2.1] at hl
            exact absurd hl (by decide)
        | slot q u m index =>
            obtain rfl : m = n := hnode
            rw [hw'.2.2.1] at hl
            exact absurd hl (by decide)
        | parent o' path' m q y =>
            obtain rfl : m = n := hnode
            exact insertIntoInner_below hw.1 hins hfit' fun hcut => hnot ⟨rfl, hcut⟩
  · rw [doWork_frame hx hw'.lt_count hnode]
    exact hfit'

theorem doWork_spec (h : Inv c t g) (hw : Located t g i w) (hfit : w.Fits c (t.node w.node)) :
    ∃ t' pc e g', doWork c t w = some (t', pc, e) ∧ Inv c t' g' ∧ Evolves i t g t' g' ∧
      Latched.Holds t' g' i pc ∧
      Simulates finiteMap t.content t'.content w.status pc.status e := by
  cases w with
  | leaf k v path n =>
      rcases leafSection_spec h hw hfit with ⟨g', h1, h2, h3, h4⟩
      exact ⟨_, _, _, g', rfl, h1, h2, h3, h4⟩
  | slot k v n index =>
      rcases hw with ⟨_, hr, hl, _⟩
      rcases hfit with ⟨hh, hi, hk⟩
      obtain rfl : (t.node n).index k = index := hi
      have hsize := (h.node n hr.lt_count).wellFormed.size_le_maxItems hl
      have hspec := setValue_spec h i hr.lt_count hl hr.low_le hh v
        fun hlt => hk (lt_of_lt_of_le hlt hsize)
      exact ⟨_, _, _, g, rfl, hspec.1, hspec.2.1, trivial, ⟨rfl, rfl⟩, hspec.2.2, rfl⟩
  | parent o path n k x =>
      rcases hw with ⟨hn, hl, hpend, hlv, hp⟩
      rcases insertIntoInner_spec h hn hl hpend hlv with ⟨t1, up, g', h1, h2, h3, h4, h5⟩
      refine ⟨t1, propagate o path up, none, g', ?_, h2, h3, ?_, h4, status_propagate o path up⟩
      · simp [doWork, h1]
      · exact holds_propagate (hp.evolves h3) h5

/-! ## Steps -/

/-- What a step keeps; `fits` says which threads can rely on what they have found. -/
structure Stepped (c : Capacity) (i : Nat) (s : LatchedTree) (l : Latches Nat) (pc : Pc)
    (s' : LatchedTree) (l' : Latches Nat) (pc' : Pc) (e : Option (Event Op Value)) : Prop where
  inv : Inv c s'.tree l'.ghost
  held : Held s'.bits l'.holder
  evolves : Evolves i s.tree l.ghost s'.tree l'.ghost
  holder : ∀ j, j ≠ i → ∀ n, l.holder n = some j → l'.holder n = some j
  fits : ∀ j, j ≠ i → ∀ w', Located s.tree l.ghost j w' → w'.Fits c (s.tree.node w'.node) →
    (∀ w, pc = .write w → ¬ Disturbs c s.tree w w') ∨ l.holder w'.node = some j →
    w'.Fits c (s'.tree.node w'.node)
  holds : Holds c s' l' i pc'
  simulates : Simulates finiteMap s.tree.content s'.tree.content pc.status pc'.status e

/-- A step that reads, or changes a reader count. -/
theorem stepped_of_read {pc pc' : Pc} {bits : Nat → BitVec 32} {e : Option (Event Op Value)}
    (h : Inv c s.tree l.ghost) (hheld : Held bits l.holder)
    (hpc : Holds c { s with bits := bits } l i pc')
    (hs : Simulates finiteMap s.tree.content s.tree.content pc.status pc'.status e) :
    Stepped c i s l pc { s with bits := bits } l pc' e :=
  ⟨h, hheld, Evolves.refl i s.tree l.ghost, fun _ _ _ hm => hm, fun _ _ _ _ hfit _ => hfit, hpc, hs⟩

theorem stepped_of_lockShared {pc : Latched.Pc} (h : Inv c s.tree l.ghost)
    (hheld : Held s.bits l.holder) (ha : Holds c s l i (.base pc)) (n : Nat) :
    Stepped c i s l (.base pc) (lockShared s n pc).1 l (lockShared s n pc).2 none := by
  apply stepped_of_read h (hheld.add_reader n)
  · simp only [lockShared]
    split
    · exact ha
    · exact ha
  · refine ⟨rfl, ?_⟩
    simp only [lockShared]
    split <;> rfl

theorem stepped_of_upgrade (h : Inv c s.tree l.ghost) (hheld : Held s.bits l.holder)
    (ha : Holds c s l i (.upgrade w)) :
    ∃ l', Stepped c i s l (.upgrade w) (lockUpgrade s w).1 l' (lockUpgrade s w).2 none := by
  cases hf : isFree (s.bits w.node) with
  | true =>
      have hnone := hheld.holder_eq_none hf
      have hpc : (lockUpgrade s w).2 = .write w := by simp [lockUpgrade, hf]
      rw [hpc]
      refine ⟨{ l with holder := Slots.store l.holder w.node (some i) }, h, hheld.upgrade i hf,
        Evolves.refl i s.tree l.ghost, ?_, fun _ _ _ _ hfit _ => hfit,
        ⟨ha, Slots.store_self _ _ _⟩, rfl, rfl⟩
      intro j _ m hm
      have hmn : m ≠ w.node := fun he => by simp [he, hnone] at hm
      exact (Slots.store_of_ne _ _ hmn).trans hm
  | false =>
      have hpc : (lockUpgrade s w).2 = .upgrade w := by simp [lockUpgrade, hf]
      rw [hpc]
      exact ⟨l, stepped_of_read h (hheld.upgrade_taken hf) ha ⟨rfl, rfl⟩⟩

theorem stepped_of_unlock {pc : Latched.Pc} (h : Inv c s.tree l.ghost)
    (hheld : Held s.bits l.holder) (ha : Holds c s l i (.unlock n pc)) :
    Stepped c i s l (.unlock n pc) (unlock s n) { l with holder := Slots.store l.holder n none }
      (.base pc) none := by
  refine ⟨h, hheld.unlock n, Evolves.refl i s.tree l.ghost, ?_, fun _ _ _ _ hfit _ => hfit, ha.1,
    rfl, rfl⟩
  intro j hj m hm
  have hmn : m ≠ n := by
    intro he
    rw [he, ha.2, Option.some.injEq] at hm
    exact hj hm.symm
  exact (Slots.store_of_ne _ _ hmn).trans hm

theorem stepped_of_write (h : Inv c s.tree l.ghost) (hheld : Held s.bits l.holder)
    (ha : Holds c s l i (.write w)) :
    ∃ t pc e l', doWork c s.tree w = some (t, pc, e) ∧
      Stepped c i s l (.write w) { s with tree := t } l' (.unlock w.node pc) e := by
  rcases ha with ⟨⟨hloc, hfit⟩, hhold⟩
  rcases doWork_spec h hloc hfit with ⟨t, pc, e, g', hx, h1, h2, h3, h4⟩
  refine ⟨t, pc, e, { l with ghost := g' }, hx, h1, hheld, h2, fun _ _ _ hm => hm, ?_,
    ⟨h3, hhold⟩, h4⟩
  intro j hj w' hloc' hfit' hor
  rcases hor with hnot | hhold'
  · exact doWork_fits h hloc hfit hx hloc' hfit' (hnot w rfl)
  · have hne : w'.node ≠ w.node := by
      intro he
      rw [he, hhold, Option.some.injEq] at hhold'
      exact hj hhold'.symm
    show w'.Fits c (t.node w'.node)
    rw [doWork_frame hx hloc'.lt_count hne]
    exact hfit'

/-- A thread keeps what it knows: by its latch from the upgrade on, and before it as long as
nobody disturbs it. -/
theorem Holds.stepped {pc pc' other : Pc} {a : Act} {e : Option (Event Op Value)}
    (h : Holds c s l j other) (hs : Stepped c i s l pc s' l' pc' e) (hj : j ≠ i)
    (hharm : Harmless c s pc a other) : Holds c s' l' j other := by
  have he := hs.evolves
  cases other with
  | base pc => exact Latched.Holds.evolves h he hj
  | backOff n pc => exact Latched.Holds.evolves h he hj
  | shared pc => exact Latched.Holds.evolves h he hj
  | unlockShared n pc => exact Latched.Holds.evolves h he hj
  | upgrade w =>
      refine ⟨h.1.evolves he hj, hs.fits j hj w h.1 h.2 (Or.inl fun w' hw' => ?_)⟩
      rw [hw'] at hharm
      exact hharm
  | write w =>
      rcases h with ⟨⟨hloc, hfit⟩, hhold⟩
      exact ⟨⟨hloc.evolves he hj, hs.fits j hj w hloc hfit (Or.inr hhold)⟩,
        hs.holder j hj _ hhold⟩
  | unlock n pc => exact ⟨Latched.Holds.evolves h.1 he hj, hs.holder j hj n h.2⟩

/-- A leaf below its high key, read under the shared latch. -/
theorem stepped_of_readLeaf (h : Inv c s.tree l.ghost) (hheld : Held s.bits l.holder)
    {o : Op} {path : List Nat} (ha : Latched.Holds s.tree l.ghost i (.leaf o path n))
    (hh : o.key < (s.tree.node n).highKey) :
    Stepped c i s l (.shared (.leaf o path n)) s l (readLeaf c s.tree o path n).1
      ((readLeaf c s.tree o path n).2.map (.effect o)) := by
  rcases id ha with ⟨hk, hr, hl, _⟩
  cases o with
  | insert k v => exact stepped_of_read h hheld ⟨ha, hh⟩ ⟨rfl, rfl⟩
  | update k v =>
      by_cases hfound : (s.tree.node n).leafKey c ((s.tree.node n).index k) = k
      · have hread : readLeaf c s.tree (.update k v) path n =
            (.upgrade (.slot k v n ((s.tree.node n).index k)), none) := if_pos hfound
        rw [hread]
        have hwork : Holds c s l i (.upgrade (.slot k v n ((s.tree.node n).index k))) :=
          ⟨⟨hk, hr, hl, trivial⟩, hh, rfl, fun hi => (Node.leafKey_of_lt hi).symm.trans hfound⟩
        exact stepped_of_read h hheld hwork ⟨rfl, rfl⟩
      · have hread : readLeaf c s.tree (.update k v) path n =
            (.unlockShared n (.done (.update k v) 0), some 0) := if_neg hfound
        -- the leaf that covers the key does not hold it, so there is nothing to replace
        have hsame : s.tree.setNode n ((s.tree.node n).updateValue c k v) = s.tree := by
          rw [Node.updateValue, if_neg hfound]
          exact setNode_node s.tree n
        have hcontent : (s.tree.setNode n ((s.tree.node n).updateValue c k v)).content =
            OrderedMap.replace k v s.tree.content :=
          (updateValue_spec h i hr.lt_count hl hr.low_le hh v).2.2
        rw [hsame] at hcontent
        rw [hread]
        exact stepped_of_read h hheld trivial ⟨⟨rfl, rfl⟩, hcontent, rfl⟩
  | find k =>
      have hallow : finiteMap.allows s.tree.content (.find k) ((s.tree.node n).findValue c k) :=
        fun u hu => findValue_spec h hr.lt_count hl hr.low_le hh u hu
      exact stepped_of_read h hheld trivial ⟨⟨rfl, hallow⟩, rfl, rfl⟩

/-- What a thread does under the shared latch: it moves on, or it finds out what to write. -/
theorem stepped_of_shared (h : Inv c s.tree l.ghost) (hheld : Held s.bits l.holder)
    {pc : Latched.Pc} {pc' : Pc} {e : Option (Event Op Value)} (ha : Holds c s l i (.shared pc))
    (hs : next c s (.shared pc) .go = some (s', pc', e)) :
    ∃ l', Stepped c i s l (.shared pc) s' l' pc' e := by
  cases pc with
  | inner o path n =>
      rcases ha with ⟨hk, hr, hl, hp⟩
      simp only [next] at hs
      split at hs
      next hh =>
        rcases h.right_move hr.lt_count hk hh with ⟨r, h1, h2, h3, h4, h5⟩
        simp only [moveRight, h1, Option.some.injEq, Prod.mk.injEq] at hs
        rcases hs with ⟨rfl, rfl, rfl⟩
        rw [← h4] at hp
        have hright : Holds c s l i (.unlockShared n (.inner o path r)) :=
          ⟨hk, ⟨h2, h3⟩, h5.trans hl, hp⟩
        exact ⟨l, stepped_of_read h hheld hright ⟨rfl, rfl⟩⟩
      next hh =>
        rcases (h.node n hr.lt_count).child hl hr.low_le with ⟨m, h1, h2, h3, h4⟩
        simp only [h1, Option.some.injEq, Prod.mk.injEq] at hs
        rcases hs with ⟨rfl, rfl, rfl⟩
        have hdown : Holds c s l i
            (.unlockShared n (enter s.tree o (push o path n) (some m))) :=
          holds_enter hk ⟨h2, h3⟩ (onPath_push hr.lt_count hl hp h4)
        exact ⟨l, stepped_of_read h hheld hdown ⟨rfl, status_enter _ _ _ _⟩⟩
  | leaf o path n =>
      rcases id ha with ⟨hk, hr, hl, hp⟩
      simp only [next] at hs
      split at hs
      next hh =>
        rcases h.right_move hr.lt_count hk hh with ⟨r, h1, h2, h3, _, h5⟩
        simp only [moveRight, h1, Option.some.injEq, Prod.mk.injEq] at hs
        rcases hs with ⟨rfl, rfl, rfl⟩
        have hright : Holds c s l i (.unlockShared n (.leaf o path r)) :=
          ⟨hk, ⟨h2, h3⟩, h5.trans hl, hp⟩
        exact ⟨l, stepped_of_read h hheld hright ⟨rfl, rfl⟩⟩
      next hh =>
        simp only [Option.some.injEq, Prod.mk.injEq] at hs
        rcases hs with ⟨rfl, rfl, rfl⟩
        exact ⟨l, stepped_of_readLeaf h hheld ha (not_le.mp hh)⟩
  | parent o path n k x =>
      rcases id ha with ⟨hn, hl, hpend, hlv, hp⟩
      simp only [next] at hs
      split at hs
      next hh =>
        rcases h.right_move hn hpend.key_lt hh with ⟨r, h1, h2, _, h4, h5⟩
        simp only [moveRight, h1, Option.some.injEq, Prod.mk.injEq] at hs
        rcases hs with ⟨rfl, rfl, rfl⟩
        rw [← h4] at hlv hp
        have hright : Holds c s l i (.unlockShared n (.parent o path r k x)) :=
          ⟨h2, h5.trans hl, hpend, hlv, hp⟩
        exact ⟨l, stepped_of_read h hheld hright ⟨rfl, rfl⟩⟩
      next hh =>
        simp only [Option.some.injEq, Prod.mk.injEq] at hs
        rcases hs with ⟨rfl, rfl, rfl⟩
        have hwork : Holds c s l i (.upgrade (.parent o path n k x)) :=
          ⟨ha, not_le.mp hh⟩
        exact ⟨l, stepped_of_read h hheld hwork ⟨rfl, rfl⟩⟩
  | _ => simp [next] at hs

theorem next_spec (h : Inv c s.tree l.ghost) (hheld : Held s.bits l.holder) {pc pc' : Pc}
    {a : Act} {e : Option (Event Op Value)} (ha : Holds c s l i pc) (hv : a.Valid)
    (hs : next c s pc a = some (s', pc', e)) : ∃ l', Stepped c i s l pc s' l' pc' e := by
  cases a with
  | call o =>
      cases pc with
      | base pc =>
          cases pc with
          | idle =>
              simp only [next, Option.some.injEq, Prod.mk.injEq] at hs
              rcases hs with ⟨rfl, rfl, rfl⟩
              exact ⟨l, stepped_of_read h hheld hv ⟨rfl, rfl, rfl⟩⟩
          | _ => simp [next] at hs
      | _ => simp [next] at hs
  | go =>
      cases pc with
      | base pc =>
          cases pc with
          | idle => simp [next] at hs
          | crashed o => exact ha.elim
          | start o =>
              simp only [next, Option.some.injEq, Prod.mk.injEq] at hs
              rcases hs with ⟨rfl, rfl, rfl⟩
              have hroot : Holds c s l i (.base (enter s.tree o [] (some s.tree.root))) :=
                holds_enter ha (Reached.root h _) trivial
              exact ⟨l, stepped_of_read h hheld hroot ⟨rfl, status_enter _ _ _ _⟩⟩
          | inner o path n =>
              simp only [next, Option.some.injEq, Prod.mk.injEq] at hs
              rcases hs with ⟨rfl, rfl, rfl⟩
              exact ⟨l, stepped_of_lockShared h hheld ha n⟩
          | leaf o path n =>
              simp only [next, Option.some.injEq, Prod.mk.injEq] at hs
              rcases hs with ⟨rfl, rfl, rfl⟩
              exact ⟨l, stepped_of_lockShared h hheld ha n⟩
          | parent o path n k x =>
              simp only [next, Option.some.injEq, Prod.mk.injEq] at hs
              rcases hs with ⟨rfl, rfl, rfl⟩
              exact ⟨l, stepped_of_lockShared h hheld ha n⟩
          | newRoot o k x =>
              simp only [next, Option.some.injEq, Prod.mk.injEq] at hs
              rcases hs with ⟨rfl, rfl, rfl⟩
              rcases createNewRoot_spec h ha with ⟨g', h1, h2, h3, _⟩
              refine ⟨{ l with ghost := g' }, h1, hheld, h2, fun _ _ _ hm => hm, ?_, trivial, h3,
                rfl⟩
              intro j _ w' hloc hfit _
              show w'.Fits c ((s.tree.createNewRoot s.tree.root x k).node w'.node)
              rw [(createNewRoot_isNewRoot s.tree s.tree.root x k).frame _ hloc.lt_count.ne]
              exact hfit
          | done o r =>
              simp only [next, Option.some.injEq, Prod.mk.injEq] at hs
              rcases hs with ⟨rfl, rfl, rfl⟩
              exact ⟨l, stepped_of_read h hheld trivial ⟨rfl, rfl, rfl⟩⟩
      | backOff n pc =>
          simp only [next, Option.some.injEq, Prod.mk.injEq] at hs
          rcases hs with ⟨rfl, rfl, rfl⟩
          exact ⟨l, stepped_of_read h (hheld.sub_reader n) ha ⟨rfl, rfl⟩⟩
      | unlockShared n pc =>
          simp only [next, Option.some.injEq, Prod.mk.injEq] at hs
          rcases hs with ⟨rfl, rfl, rfl⟩
          exact ⟨l, stepped_of_read h (hheld.sub_reader n) ha ⟨rfl, rfl⟩⟩
      | shared pc => exact stepped_of_shared h hheld ha hs
      | upgrade w =>
          simp only [next, Option.some.injEq, Prod.mk.injEq] at hs
          rcases hs with ⟨rfl, rfl, rfl⟩
          exact stepped_of_upgrade h hheld ha
      | write w =>
          rcases stepped_of_write h hheld ha with ⟨t, pc1, e1, l', hx, hstep⟩
          simp only [next, hx, Option.some.injEq, Prod.mk.injEq] at hs
          rcases hs with ⟨rfl, rfl, rfl⟩
          exact ⟨l', hstep⟩
      | unlock n pc =>
          simp only [next, Option.some.injEq, Prod.mk.injEq] at hs
          rcases hs with ⟨rfl, rfl, rfl⟩
          exact ⟨_, stepped_of_unlock h hheld ha⟩

/-! ## Runs -/

/-- The invariant of the shared state. -/
def InvHeld (c : Capacity) (s : LatchedTree) (l : Latches Nat) : Prop :=
  Inv c s.tree l.ghost ∧ Held s.bits l.holder

theorem safe {memory : Nat → Memory} {w : World}
    (hw : Reachable (next c) (Careful c) (init memory) w) :
    Safe finiteMap (fun s => s.tree.content) Pc.status (InvHeld c) (Holds c) w := by
  refine safe_of_reachable hw ⟨⟨Ghost.initial Nat, fun _ => none⟩,
    ⟨inv_empty c memory, held_zero⟩, fun _ => trivial, ?_⟩ ?_
  · exact tracks_empty memory
  · intro w i a l s' pc' e hok h hall hs
    rcases next_spec h.1 h.2 (hall i) hok.1 hs with ⟨l', hstep⟩
    exact ⟨l', ⟨hstep.inv, hstep.held⟩, hstep.holds,
      fun j hj => (hall j).stepped hstep hj (hok.2 j hj), hstep.simulates⟩

/-- The node on which a thread is inside its write section. -/
def Pc.section : Pc → Option Nat
  | write w => some w.node
  | unlock n _ => some n
  | _ => none

theorem Holds.section {pc : Pc} (h : Holds c s l i pc) (hn : pc.section = some n) :
    l.holder n = some i := by
  cases pc with
  | write w =>
      obtain rfl : w.node = n := by simpa [Pc.section] using hn
      exact h.2
  | unlock m after =>
      obtain rfl : m = n := by simpa [Pc.section] using hn
      exact h.2
  | _ => simp [Pc.section] at hn

/-- The write that is about to run is in its place: an insert is on the leaf that covers its
key, an update on the slot of its key in the leaf that covers it, and a separator is below
the high key of its node. Behind the slots of a leaf writes only the update of a key that the
leaf does not have. -/
def InPlace (c : Capacity) (t : Tree) : Work → Prop
  | .leaf k _ _ n => t.Covers n k
  | .slot k _ n index => t.Covers n k ∧
      if index < c.maxItems then (t.node n).keys index = k else k ∉ (t.node n).liveKeys
  | .parent _ _ n k _ => k < (t.node n).highKey

theorem inPlace_of_fits (h : Inv c t g) (hw : Located t g i w) (hfit : w.Fits c (t.node w.node)) :
    InPlace c t w := by
  cases w with
  | leaf k v path n =>
      rcases hw with ⟨_, hr, hl, _⟩
      exact h.covers hr.lt_count hl hr.low_le hfit
  | slot k v n index =>
      rcases hw with ⟨_, hr, hl, _⟩
      refine ⟨h.covers hr.lt_count hl hr.low_le hfit.1, ?_⟩
      split
      next hi => exact hfit.2.2 hi
      next hi =>
        have hw := (h.node n hr.lt_count).wellFormed
        intro hmem
        have hlt := ((Node.mem_liveKeys_iff hw.monotone k).mp hmem).1
        have hindex : (t.node n).index k = index := hfit.2.1
        rw [hindex] at hlt
        exact hi (lt_of_lt_of_le hlt (hw.size_le_maxItems hl))
  | parent o path n k x => exact hfit

/-- In every run in which no write disturbs a thread that has read the same node and waits for
its upgrade, every write is in its place and alone on its node, the calls are linearized,
and no thread follows a null pointer. -/
theorem upgraded_writes_in_place (c : Capacity) (memory : Nat → Memory) (w : World)
    (hw : Reachable (next c) (Careful c) (init memory) w) :
    (∀ i x, w.thread i = .write x → InPlace c w.shared.tree x) ∧
      (∀ i j n, (w.thread i).section = some n → (w.thread j).section = some n → i = j) ∧
      Explains w.history w.shared.tree.content ∧
      (∀ i, status w.history i = (w.thread i).status) ∧
      ∀ i o, w.thread i ≠ .base (.crashed o) := by
  rcases safe hw with ⟨l, ⟨hinv, _⟩, hall, hlegal, hstate, hstatus⟩
  have hcontent : state finiteMap w.history = w.shared.tree.content := hstate
  refine ⟨?_, ?_, hcontent ▸ explains_of_legal hlegal, hstatus, ?_⟩
  · intro i x hpc
    have ha := hall i
    rw [hpc] at ha
    exact inPlace_of_fits hinv ha.1.1 ha.1.2
  · intro i j n hi hj
    have h1 := (hall i).section hi
    have h2 := (hall j).section hj
    rw [h1, Option.some.injEq] at h2
    exact h2
  · intro i o hpc
    have ha := hall i
    rw [hpc] at ha
    exact ha

/-- Two inserts fill the first leaf, and a third one has found it for its key. A fourth one
splits it at 20 while the third one waits for its upgrade. -/
def foundLeafAndSplit (waiting splitting : Nat) : List (Nat × Act) :=
  [(0, .call (.insert 10 1))] ++ List.replicate 6 (0, .go) ++ [(1, .call (.insert 20 2))] ++
    List.replicate 6 (1, .go) ++ [(2, .call (.insert waiting 3)), (2, .go), (2, .go), (2, .go)] ++
    [(3, .call (.insert splitting 4))] ++ List.replicate 8 (3, .go) ++ [(2, .go)]

/-- The split leaves key 5 where it was, and the third thread writes where its key belongs. -/
theorem upgraded_writes_in_place_beside_split :
    ∃ w, Reachable (next .smallest) (Careful .smallest) (init fun _ => .zero) w ∧
      w.thread 2 = .write (.leaf 5 3 [] 0) ∧ (w.shared.tree.node 0).highKey = 20 ∧
      InPlace .smallest w.shared.tree (.leaf 5 3 [] 0) := by
  have hrun : (run (next .smallest) (ApartBelow (fun _ _ a => a.Valid) (Harmless .smallest) 4)
      (init fun _ => .zero) (foundLeafAndSplit 5 30)).map
      (fun w => (w.thread 2, (w.shared.tree.node 0).highKey)) =
      some (.write (.leaf 5 3 [] 0), 20) := by decide
  rcases Option.map_eq_some_iff.mp hrun with ⟨w, hw, hstate⟩
  simp only [Prod.mk.injEq] at hstate
  have hreach : Reachable (next .smallest) (Careful .smallest) (init fun _ => .zero) w :=
    Reachable.of_run_apart (.base .idle) (fun s pc _ => by cases pc <;> trivial)
      (fun _ _ => rfl) hw
  exact ⟨w, hreach, hstate.1, hstate.2,
    (upgraded_writes_in_place .smallest _ w hreach).1 2 _ hstate.1⟩

/-- An update has found its key in the first slot, and an insert shifts the slots. -/
def foundSlotAndShift : List (Nat × Act) :=
  [(0, .call (.insert 10 1))] ++ List.replicate 7 (0, .go) ++
    [(0, .call (.update 10 7)), (0, .go), (0, .go), (0, .go)] ++
    [(1, .call (.insert 5 2))] ++ List.replicate 7 (1, .go) ++ [(0, .go)]

/-- For key 30 the third insert writes into the leaf that now ends at 20, and a `find` that is
called after it has returned gives 0. The update writes the value of key 5, as a later
`find` shows. -/
theorem upgraded_write_misplaced :
    (∃ w w', Reachable (next .smallest) (fun _ _ a => a.Valid) (init fun _ => .zero) w ∧
      w.thread 2 = .write (.leaf 30 3 [] 0) ∧ (w.shared.tree.node 0).highKey = 20 ∧
      run (next .smallest) (fun _ _ a => a.Valid) w (List.replicate 4 (2, .go) ++
        [(4, .call (.find 30))] ++ List.replicate 11 (4, .go)) = some w' ∧
      w'.history.take 4 = [(4, .ret (.find 30) 0), (4, .effect (.find 30) 0),
        (4, .invoke (.find 30)), (2, .ret (.insert 30 3) 0)]) ∧
    ∃ w w', Reachable (next .smallest) (fun _ _ a => a.Valid) (init fun _ => .zero) w ∧
      w.thread 0 = .write (.slot 10 7 0 0) ∧ (w.shared.tree.node 0).keys 0 = 5 ∧
      run (next .smallest) (fun _ _ a => a.Valid) w (List.replicate 3 (0, .go) ++
        [(2, .call (.find 5))] ++ List.replicate 5 (2, .go)) = some w' ∧
      w'.history.take 4 = [(2, .ret (.find 5) 7), (2, .effect (.find 5) 7),
        (2, .invoke (.find 5)), (0, .ret (.update 10 7) 0)] := by
  constructor
  · have hrun : (run (next .smallest) (fun _ _ a => a.Valid) (init fun _ => .zero)
        (foundLeafAndSplit 30 5)).map (fun w => (w.thread 2, (w.shared.tree.node 0).highKey)) =
        some (.write (.leaf 30 3 [] 0), 20) := by decide
    have hrest : (run (next .smallest) (fun _ _ a => a.Valid) (init fun _ => .zero)
        (foundLeafAndSplit 30 5)).bind (fun w => (run (next .smallest) (fun _ _ a => a.Valid) w
          (List.replicate 4 (2, .go) ++ [(4, .call (.find 30))] ++
            List.replicate 11 (4, .go))).map fun w => w.history.take 4) =
        some [(4, .ret (.find 30) 0), (4, .effect (.find 30) 0), (4, .invoke (.find 30)),
          (2, .ret (.insert 30 3) 0)] := by decide
    rcases Reachable.of_run_run hrun hrest with ⟨w, w', hw, hstate, hw', hend⟩
    simp only [Prod.mk.injEq] at hstate
    exact ⟨w, w', hw, hstate.1, hstate.2, hw', hend⟩
  · have hrun : (run (next .smallest) (fun _ _ a => a.Valid) (init fun _ => .zero)
        foundSlotAndShift).map (fun w => (w.thread 0, (w.shared.tree.node 0).keys 0)) =
        some (.write (.slot 10 7 0 0), 5) := by decide
    have hrest : (run (next .smallest) (fun _ _ a => a.Valid) (init fun _ => .zero)
        foundSlotAndShift).bind (fun w => (run (next .smallest) (fun _ _ a => a.Valid) w
          (List.replicate 3 (0, .go) ++ [(2, .call (.find 5))] ++
            List.replicate 5 (2, .go))).map fun w => w.history.take 4) =
        some [(2, .ret (.find 5) 7), (2, .effect (.find 5) 7), (2, .invoke (.find 5)),
          (0, .ret (.update 10 7) 0)] := by decide
    rcases Reachable.of_run_run hrun hrest with ⟨w, w', hw, hstate, hw', hend⟩
    simp only [Prod.mk.injEq] at hstate
    exact ⟨w, w', hw, hstate.1, hstate.2, hw', hend⟩

end BLinkTree.Latched.ReadWrite

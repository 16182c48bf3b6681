import BLinkTree.Optimistic.Program
import BLinkTree.Latched.Linearizable

/-! # The optimistic thread tree writes into covering leaves

A descent needs no version: whatever it reads, the child starts no later than the key, and
the high key of a leaf never grows, so that a right move does not pass the key either. Only
the upper end of the range depends on the moment. `find` and `update` compare the version
after they have left the loop; `insert`, and `update` behind its comparison, acquire a leaf
that may have been split in the meantime.
-/

namespace BLinkTree.Optimistic

open Linearization Interleaving VersionLock

variable {c : Capacity} {s s' : VersionedTree} {l l' : Latches Nat} {i n v : Nat}

/-- The thread is at node `n` on its way down. -/
structure Descends (s : VersionedTree) (l : Latches Nat) (o : Op) (path : List Nat) (n : Nat) :
    Prop where
  key_lt : o.key < maxKey
  reached : Reached s.tree l.ghost n o.key
  onPath : OnPath s.tree l.ghost (l.ghost.level n) path

/-- The thread is at the leaf `n`. -/
structure AtLeaf (s : VersionedTree) (l : Latches Nat) (o : Op) (path : List Nat) (n : Nat) :
    Prop where
  key_lt : o.key < maxKey
  reached : Reached s.tree l.ghost n o.key
  isLeaf : (s.tree.node n).isLeaf = true
  onPath : OnPath s.tree l.ghost 0 path

/-- The thread is at the leaf `n`, and `P` was true of it in version `v`. -/
structure Looks (s : VersionedTree) (l : Latches Nat) (o : Op) (path : List Nat) (n v : Nat)
    (P : Node → Prop) : Prop where
  atLeaf : AtLeaf s l o path n
  snapshot : Snapshot s.version n v (P (s.tree.node n))

/-- What a thread knows. -/
def Holds (c : Capacity) (s : VersionedTree) (l : Latches Nat) (i : Nat) : Pc → Prop
  | .idle => True
  | .start o => o.key < maxKey
  | .locate o path n => Descends s l o path n
  | .inner o path n _ => Descends s l o path n
  | .child o path n _ _ => Descends s l o path n ∧ (s.tree.node n).isLeaf = false
  | .childRead o path n _ _ m => (Descends s l o path n ∧ (s.tree.node n).isLeaf = false) ∧
      ∃ k, m = some k ∧ Reached s.tree l.ghost k o.key ∧ l.ghost.level k < l.ghost.level n
  | .leaf o path n => AtLeaf s l o path n
  | .check o path n v => Looks s l o path n v fun _ => True
  | .move o path n v => Looks s l o path n v fun _ => True
  | .sibling o path n _ => AtLeaf s l o path n ∧ (s.tree.node n).highKey ≤ o.key
  | .right o path n _ => AtLeaf s l o path n ∧ (s.tree.node n).highKey ≤ o.key
  | .rightRead o path n _ r => AtLeaf s l o path n ∧ ∃ m, r = some m ∧ AtLeaf s l o path m
  | .again o path n => AtLeaf s l o path n
  | .leave o path n v => (∃ k u, o = .update k u) ∧
      Looks s l o path n v fun nd => o.key < nd.highKey
  | .search o path n v => (∃ k, o = .find k) ∧ Looks s l o path n v fun nd => o.key < nd.highKey
  | .slot o path n v j => (∃ k, o = .find k) ∧
      Looks s l o path n v fun nd => o.key < nd.highKey ∧ j = nd.index o.key
  | .slotKey o path n v j k => (∃ k, o = .find k) ∧
      Looks s l o path n v fun nd => (o.key < nd.highKey ∧ j = nd.index o.key) ∧ k = nd.leafKey c j
  | .found o path n v r => (∃ k, o = .find k) ∧
      Looks s l o path n v fun nd => o.key < nd.highKey ∧ r = nd.findValue c o.key
  | .acquire o path n => AtLeaf s l o path n ∧ o.key < (s.tree.node n).highKey
  | .mutate o path n => (AtLeaf s l o path n ∧ o.key < (s.tree.node n).highKey) ∧
      l.holder n = some i
  | .parent o path n k x => Latched.Holds s.tree l.ghost i (.parent o path n k x)
  | .parentHigh o path n k x => Latched.Holds s.tree l.ghost i (.parent o path n k x) ∧
      l.holder n = some i
  | .parentRight o path n k x => (Latched.Holds s.tree l.ghost i (.parent o path n k x) ∧
      l.holder n = some i) ∧ (s.tree.node n).highKey ≤ k
  | .parentInsert o path n k x => Latched.Holds s.tree l.ghost i (.parent o path n k x) ∧
      l.holder n = some i
  | .release n pc => Latched.Holds s.tree l.ghost i pc ∧ l.holder n = some i
  | .newRoot o k x => Latched.Holds s.tree l.ghost i (.newRoot o k x)
  | .done _ _ => True
  | .crashed _ => False

/-! ## Steps of the others -/

theorem Descends.evolves {o : Op} {path : List Nat} (h : Descends s l o path n)
    (he : Evolves i s.tree l.ghost s'.tree l'.ghost) : Descends s' l' o path n := by
  have hpath := h.onPath.evolves he
  rw [← he.level_eq n h.reached.lt_count] at hpath
  exact ⟨h.key_lt, h.reached.evolves he, hpath⟩

theorem AtLeaf.evolves {o : Op} {path : List Nat} (h : AtLeaf s l o path n)
    (he : Evolves i s.tree l.ghost s'.tree l'.ghost) : AtLeaf s' l' o path n := by
  have hleaf : (s'.tree.node n).isLeaf = true := by
    rw [he.isLeaf_eq n h.reached.lt_count, h.isLeaf]
  exact ⟨h.key_lt, h.reached.evolves he, hleaf, h.onPath.evolves he⟩

/-- A leaf that ends before the key stays so. -/
theorem AtLeaf.highKey_le {o : Op} {path : List Nat} (h : AtLeaf s l o path n)
    (he : Evolves i s.tree l.ghost s'.tree l'.ghost) (hh : (s.tree.node n).highKey ≤ o.key) :
    (s'.tree.node n).highKey ≤ o.key :=
  (he.highKey_le n h.reached.lt_count h.isLeaf).trans hh

theorem Looks.interferes {o : Op} {path : List Nat} {P : Node → Prop}
    (h : Looks s l o path n v P) (hheld : Held s.version l.holder)
    (hs : Interferes i s l s' l') : Looks s' l' o path n v P :=
  ⟨h.atLeaf.evolves hs.evolves, hs.snapshot hheld h.atLeaf.reached.lt_count h.snapshot⟩

theorem Looks.mono {o : Op} {path : List Nat} {P Q : Node → Prop} (h : Looks s l o path n v P)
    (hPQ : P (s.tree.node n) → Q (s.tree.node n)) : Looks s l o path n v Q :=
  ⟨h.atLeaf, h.snapshot.mono fun _ => hPQ⟩

/-- A thread keeps what it knows; a writer that waits for its leaf, as long as the leaf is
spared. -/
theorem Holds.moves {j : Nat} {other : Pc} {write : Option (Op × Nat)} (h : Holds c s l j other)
    (hheld : Held s.version l.holder) (hs : Moves c i s l write s' l') (hj : j ≠ i)
    (hsp : Spares c s.tree write (waits other)) : Holds c s' l' j other := by
  have hin := hs.interferes
  have he := hin.evolves
  cases other with
  | idle => trivial
  | start o => exact h
  | done o r => trivial
  | crashed o => exact h
  | locate o path n => exact Descends.evolves h he
  | inner o path n v => exact Descends.evolves h he
  | child o path n v r =>
      have hlt := h.1.reached.lt_count
      exact ⟨h.1.evolves he, by rw [he.isLeaf_eq n hlt, h.2]⟩
  | childRead o path n v r m =>
      rcases h with ⟨⟨hd, hl⟩, k, hm, hk, hlv⟩
      have hlt := hd.reached.lt_count
      refine ⟨⟨hd.evolves he, by rw [he.isLeaf_eq n hlt, hl]⟩, k, hm, hk.evolves he, ?_⟩
      rw [he.level_eq k hk.lt_count, he.level_eq n hlt]
      exact hlv
  | leaf o path n => exact AtLeaf.evolves h he
  | check o path n v => exact Looks.interferes h hheld hin
  | move o path n v => exact Looks.interferes h hheld hin
  | sibling o path n v => exact ⟨h.1.evolves he, h.1.highKey_le he h.2⟩
  | right o path n v => exact ⟨h.1.evolves he, h.1.highKey_le he h.2⟩
  | rightRead o path n v r =>
      rcases h with ⟨hn, m, hm, hr⟩
      exact ⟨hn.evolves he, m, hm, hr.evolves he⟩
  | again o path n => exact AtLeaf.evolves h he
  | leave o path n v => exact ⟨h.1, h.2.interferes hheld hin⟩
  | search o path n v => exact ⟨h.1, h.2.interferes hheld hin⟩
  | slot o path n v j => exact ⟨h.1, h.2.interferes hheld hin⟩
  | slotKey o path n v j k => exact ⟨h.1, h.2.interferes hheld hin⟩
  | found o path n v r => exact ⟨h.1, h.2.interferes hheld hin⟩
  | acquire o path n =>
      rcases h with ⟨hn, hh⟩
      exact ⟨hn.evolves he, hs.below n o hn.reached.lt_count hn.isLeaf hh hsp⟩
  | mutate o path n =>
      rcases h with ⟨⟨hn, hh⟩, hhold⟩
      rw [← hin.held_node hj hhold hn.reached.lt_count] at hh
      exact ⟨⟨hn.evolves he, hh⟩, hin.holder j hj n hhold⟩
  | parent o path n k x =>
      have hn : Latched.Holds s.tree l.ghost j (.parent o path n k x) := h
      exact hn.evolves he hj
  | parentHigh o path n k x => exact ⟨Latched.Holds.evolves h.1 he hj, hin.holder j hj n h.2⟩
  | parentRight o path n k x =>
      rcases h with ⟨⟨hn, hhold⟩, hh⟩
      rw [← hin.held_node hj hhold hn.1] at hh
      exact ⟨⟨Latched.Holds.evolves hn he hj, hin.holder j hj n hhold⟩, hh⟩
  | parentInsert o path n k x => exact ⟨Latched.Holds.evolves h.1 he hj, hin.holder j hj n h.2⟩
  | release n pc => exact ⟨Latched.Holds.evolves h.1 he hj, hin.holder j hj n h.2⟩
  | newRoot o k x =>
      have hn : Latched.Holds s.tree l.ghost j (.newRoot o k x) := h
      exact hn.evolves he hj

/-! ## Steps -/

/-- What a step keeps. -/
structure Stepped (c : Capacity) (i : Nat) (s : VersionedTree) (l : Latches Nat) (pc : Pc)
    (a : Latched.Act) (s' : VersionedTree) (l' : Latches Nat) (pc' : Pc)
    (e : Option (Event Op Value)) : Prop where
  inv : Inv c s'.tree l'.ghost
  moves : Moves c i s l (leafWrite pc a) s' l'
  holds : Holds c s' l' i pc'
  simulates : Simulates finiteMap s.tree.content s'.tree.content pc.status pc'.status e

theorem stepped_of_read {pc pc' : Pc} {a : Latched.Act} {e : Option (Event Op Value)}
    (h : Inv c s.tree l.ghost) (hheld : Held s.version l.holder) (hpc : Holds c s l i pc')
    (hs : Simulates finiteMap s.tree.content s.tree.content pc.status pc'.status e) :
    Stepped c i s l pc a s l pc' e :=
  ⟨h, moves_of_read i _ hheld, hpc, hs⟩

/-- A step that changes nothing and does not complete the call. -/
theorem stepped_of_look {pc pc₁ pc' : Pc} {a : Latched.Act} {e : Option (Event Op Value)}
    (h : Inv c s.tree l.ghost) (hheld : Held s.version l.holder) (hpc : Holds c s l i pc₁)
    (hstatus : pc₁.status = pc.status) (hs : some (s, pc₁, none) = some (s', pc', e)) :
    ∃ l', Stepped c i s l pc a s' l' pc' e := by
  simp only [Option.some.injEq, Prod.mk.injEq] at hs
  rcases hs with ⟨rfl, rfl, rfl⟩
  exact ⟨l, stepped_of_read h hheld hpc ⟨rfl, hstatus⟩⟩

theorem stepped_of_lock {pc pc' : Pc} {a : Latched.Act} (h : Inv c s.tree l.ghost)
    (hheld : Held s.version l.holder) (hlock : s.lock n = some s')
    (hpc : Holds c s' { l with holder := Slots.store l.holder n (some i) } i pc')
    (hstatus : pc'.status = pc.status) :
    Stepped c i s l pc a s' { l with holder := Slots.store l.holder n (some i) } pc' none := by
  rcases moves_of_lock i (leafWrite pc a) hheld hlock with ⟨hmoves, htree⟩
  refine ⟨?_, hmoves, hpc, ?_, hstatus⟩
  · rw [htree]
    exact h
  · rw [htree]

theorem holds_resume {pc : Latched.Pc}
    (hpc : Latched.Holds s.tree l.ghost i pc) : Holds c s l i (resume pc) := by
  cases pc with
  | inner o path n => exact ⟨hpc.1, hpc.2.1, hpc.2.2.2⟩
  | leaf o path n => exact ⟨hpc.1, hpc.2.1, hpc.2.2.1, hpc.2.2.2⟩
  | _ => exact hpc

theorem status_resume (pc : Latched.Pc) : (resume pc).status = pc.status := by
  cases pc <;> rfl

/-- A version that was read just now. -/
theorem AtLeaf.looks {o : Op} {path : List Nat} (h : AtLeaf s l o path n)
    (hv : s.readValid n = some v) : Looks s l o path n v fun _ => True := by
  rcases VersionedTree.readValid_eq hv with ⟨hfree, rfl⟩
  exact ⟨h, ⟨le_rfl, hfree, fun _ => trivial⟩⟩

theorem AtLeaf.holds_enterLeaf {o : Op} {path : List Nat} (h : AtLeaf s l o path n)
    (hv : s.readValid n = some v) : Holds c s l i (enterLeaf o path n v) := by
  cases o <;> exact h.looks hv

/-- The loop over the leaves ends below the high key. -/
theorem Looks.holds_leaveLeaf {o : Op} {path : List Nat} {P : Node → Prop}
    (h : Looks s l o path n v P) (hh : o.key < (s.tree.node n).highKey) :
    Holds c s l i (leaveLeaf o path n v) := by
  have hlook : Looks s l o path n v fun nd => o.key < nd.highKey := h.mono fun _ => hh
  cases o with
  | insert k u => exact ⟨h.atLeaf, hh⟩
  | update k u => exact ⟨⟨k, u, rfl⟩, hlook⟩
  | find k => exact ⟨⟨k, rfl⟩, hlook⟩

theorem status_enterLeaf (o : Op) (path : List Nat) (n v : Nat) :
    (enterLeaf o path n v).status = .called o := by
  cases o <;> rfl

theorem status_leaveLeaf (o : Op) (path : List Nat) (n v : Nat) :
    (leaveLeaf o path n v).status = .called o := by
  cases o <;> rfl

/-- The part of a writer on its leaf. -/
theorem stepped_of_mutate (h : Inv c s.tree l.ghost) (hheld : Held s.version l.holder)
    {o : Op} {path : List Nat} (ha : Holds c s l i (.mutate o path n)) :
    ∃ l', Stepped c i s l (.mutate o path n) .go
      { s with tree := (Latched.leafSection c s.tree o path n).1 } l'
      (.release n (Latched.leafSection c s.tree o path n).2.1)
      (some (.effect o (Latched.leafSection c s.tree o path n).2.2)) := by
  rcases ha with ⟨⟨hn, hh⟩, hhold⟩
  have hleaf : Latched.Holds s.tree l.ghost i (.leaf o path n) :=
    ⟨hn.key_lt, hn.reached, hn.isLeaf, hn.onPath⟩
  rcases Latched.leafSection_spec h hleaf hh with ⟨g', h1, h2, h3, h4⟩
  have hmoves : Moves c i s l (leafWrite (.mutate o path n) .go)
      { s with tree := (Latched.leafSection c s.tree o path n).1 } { l with ghost := g' } := by
    apply moves_of_write hheld h2 hhold
    · exact fun m hm hmn => Latched.leafSection_frame hm hmn
    · exact fun m q hm _ hq hsp => Latched.leafSection_below hm hq fun hmn => hsp hmn.symm
  exact ⟨{ l with ghost := g' }, h1, hmoves, ⟨h3, hhold⟩, h4⟩

/-- The part of the propagation on an inner node. -/
theorem stepped_of_insert (h : Inv c s.tree l.ghost) (hheld : Held s.version l.holder)
    {o : Op} {path : List Nat} {k x : Nat} (ha : Holds c s l i (.parentInsert o path n k x)) :
    ∃ t up l', s.tree.insertIntoInner c n k x = some (t, up) ∧
      Stepped c i s l (.parentInsert o path n k x) .go { s with tree := t } l'
        (.release n (Latched.propagate o path up)) none := by
  rcases ha with ⟨⟨hn, hl, hpend, hlv, hp⟩, hhold⟩
  rcases insertIntoInner_spec h hn hl hpend hlv with ⟨t, up, g', h1, h2, h3, h4, h5⟩
  have hframe : ∀ m < s.tree.count, m ≠ n → t.node m = s.tree.node m :=
    fun m hm hmn => insertIntoInner_frame h1 hm hmn
  have hmoves : Moves c i s l none { s with tree := t } { l with ghost := g' } := by
    apply moves_of_write hheld h3 hhold hframe
    intro m q hm hml hq _
    have hmn : m ≠ n := by
      intro hmn
      rw [hmn, hl] at hml
      exact absurd hml (by decide)
    rw [hframe m hm hmn]
    exact hq
  have hprop := Latched.holds_propagate (o := o) (hp.evolves h3) h5
  exact ⟨t, up, { l with ghost := g' }, h1, h2, hmoves, ⟨hprop, hhold⟩, h4,
    Latched.status_propagate o path up⟩

theorem next_spec (h : Inv c s.tree l.ghost) (hheld : Held s.version l.holder) {pc pc' : Pc}
    {a : Latched.Act} {e : Option (Event Op Value)} (ha : Holds c s l i pc) (hv : Valid s pc a)
    (hs : next c s pc a = some (s', pc', e)) : ∃ l', Stepped c i s l pc a s' l' pc' e := by
  cases a with
  | call o =>
      cases pc with
      | idle =>
          simp only [next, Option.some.injEq, Prod.mk.injEq] at hs
          rcases hs with ⟨rfl, rfl, rfl⟩
          have hstart : Holds c s l i (.start o) := hv
          exact ⟨l, stepped_of_read h hheld hstart ⟨rfl, rfl, rfl⟩⟩
      | _ => simp [next] at hs
  | go =>
      cases pc with
      | idle => simp [next] at hs
      | crashed o => exact ha.elim
      | start o =>
          have hroot : Holds c s l i (.locate o [] s.tree.root) :=
            ⟨ha, Reached.root h _, trivial⟩
          exact stepped_of_look h hheld hroot rfl hs
      | locate o path n =>
          simp only [next, Option.map_eq_some_iff, Prod.mk.injEq] at hs
          rcases hs with ⟨v, _, rfl, rfl, rfl⟩
          have hinner : Holds c s l i (.inner o path n v) := ha
          exact ⟨l, stepped_of_read h hheld hinner ⟨rfl, rfl⟩⟩
      | inner o path n v =>
          have hd : Descends s l o path n := ha
          simp only [next] at hs
          split at hs
          next hl =>
            have hleaf : Holds c s l i (.leaf o path n) :=
              ⟨hd.key_lt, hd.reached, hl, hd.onPath.mono (Nat.zero_le _)⟩
            exact stepped_of_look h hheld hleaf rfl hs
          next hl =>
            have hchild : Holds c s l i (.child o path n v (s.tree.node n).rightSibling) :=
              ⟨hd, by simpa using hl⟩
            exact stepped_of_look h hheld hchild rfl hs
      | child o path n v r =>
          rcases ha with ⟨hd, hl⟩
          rcases (h.node n hd.reached.lt_count).child hl hd.reached.low_le with
            ⟨m, h1, h2, h3, h4⟩
          have hread : Holds c s l i (.childRead o path n v r ((s.tree.node n).child o.key)) :=
            ⟨⟨hd, hl⟩, m, h1, ⟨h2, h3⟩, h4⟩
          exact stepped_of_look h hheld hread rfl hs
      | childRead o path n v r m =>
          rcases ha with ⟨⟨hd, hl⟩, k, rfl, hk, hlv⟩
          simp only [next] at hs
          split at hs
          · have hpath : OnPath s.tree l.ghost (l.ghost.level k) (push o path n r (some k)) := by
              unfold push
              split
              · exact hd.onPath.mono hlv.le
              · exact Latched.onPath_push hd.reached.lt_count hl hd.onPath hlv
            have hloc : Holds c s l i (.locate o (push o path n r (some k)) k) :=
              ⟨hd.key_lt, hk, hpath⟩
            exact stepped_of_look h hheld hloc rfl hs
          · have hloc : Holds c s l i (.locate o path n) := hd
            exact stepped_of_look h hheld hloc rfl hs
      | leaf o path n =>
          simp only [next, Option.map_eq_some_iff, Prod.mk.injEq] at hs
          rcases hs with ⟨v, hread, rfl, rfl, rfl⟩
          exact ⟨l, stepped_of_read h hheld (AtLeaf.holds_enterLeaf ha hread)
            ⟨rfl, status_enterLeaf o path n v⟩⟩
      | check o path n v =>
          have hlook : Looks s l o path n v fun _ => True := ha
          simp only [next] at hs
          split at hs
          · have hmove : Holds c s l i (.move o path n v) := hlook
            exact stepped_of_look h hheld hmove rfl hs
          · have hleaf : Holds c s l i (.leaf o path n) := hlook.atLeaf
            exact stepped_of_look h hheld hleaf rfl hs
      | move o path n v =>
          have hlook : Looks s l o path n v fun _ => True := ha
          simp only [next] at hs
          split at hs
          next hh =>
            have hsib : Holds c s l i (.sibling o path n v) := ⟨hlook.atLeaf, hh⟩
            exact stepped_of_look h hheld hsib rfl hs
          next hh =>
            have hleave := hlook.holds_leaveLeaf (c := c) (i := i) (not_le.mp hh)
            exact stepped_of_look h hheld hleave (status_leaveLeaf o path n v) hs
      | sibling o path n v =>
          rcases ha with ⟨hn, hh⟩
          rcases h.right_move hn.reached.lt_count hn.key_lt hh with ⟨r, hr, _⟩
          simp only [next, hr, reduceCtorEq, if_false, Option.some.injEq, Prod.mk.injEq] at hs
          rcases hs with ⟨rfl, rfl, rfl⟩
          have hright : Holds c s l i (.right o path n v) := ⟨hn, hh⟩
          exact ⟨l, stepped_of_read h hheld hright ⟨rfl, rfl⟩⟩
      | right o path n v =>
          rcases ha with ⟨hn, hh⟩
          rcases h.right_move hn.reached.lt_count hn.key_lt hh with ⟨r, h1, h2, h3, _, h5⟩
          have hread : Holds c s l i (.rightRead o path n v (s.tree.node n).rightSibling) :=
            ⟨hn, r, h1, hn.key_lt, ⟨h2, h3⟩, h5.trans hn.isLeaf, hn.onPath⟩
          exact stepped_of_look h hheld hread rfl hs
      | rightRead o path n v r =>
          rcases ha with ⟨hn, m, rfl, hm⟩
          simp only [next] at hs
          split at hs
          · have hagain : Holds c s l i (.again o path m) := hm
            exact stepped_of_look h hheld hagain rfl hs
          · have hagain : Holds c s l i (.again o path n) := hn
            exact stepped_of_look h hheld hagain rfl hs
      | again o path n =>
          simp only [next, Option.map_eq_some_iff, Prod.mk.injEq] at hs
          rcases hs with ⟨v, hread, rfl, rfl, rfl⟩
          have hmove : Holds c s l i (.move o path n v) := AtLeaf.looks ha hread
          exact ⟨l, stepped_of_read h hheld hmove ⟨rfl, rfl⟩⟩
      | leave o path n v =>
          have hlook : Looks s l o path n v fun nd => o.key < nd.highKey := ha.2
          simp only [next] at hs
          split at hs
          next hval =>
            have hacq : Holds c s l i (.acquire o path n) :=
              ⟨hlook.atLeaf, hlook.snapshot.of_isValid hval hv⟩
            exact stepped_of_look h hheld hacq rfl hs
          · have hleaf : Holds c s l i (.leaf o path n) := hlook.atLeaf
            exact stepped_of_look h hheld hleaf rfl hs
      | search o path n v =>
          have hslot : Holds c s l i (.slot o path n v ((s.tree.node n).index o.key)) :=
            ⟨ha.1, ha.2.mono fun hh => ⟨hh, rfl⟩⟩
          exact stepped_of_look h hheld hslot rfl hs
      | slot o path n v j =>
          have hkey : Holds c s l i (.slotKey o path n v j ((s.tree.node n).leafKey c j)) :=
            ⟨ha.1, ha.2.mono fun hh => ⟨hh, rfl⟩⟩
          exact stepped_of_look h hheld hkey rfl hs
      | slotKey o path n v j k =>
          have hfound : Holds c s l i (.found o path n v
              (if k = o.key then (s.tree.node n).values j else 0)) := by
            refine ⟨ha.1, ha.2.mono fun hh => ⟨hh.1.1, ?_⟩⟩
            rw [hh.2, hh.1.2]
            rfl
          exact stepped_of_look h hheld hfound rfl hs
      | found o path n v r =>
          rcases ha with ⟨⟨k, rfl⟩, hlook⟩
          have hn := hlook.atLeaf
          simp only [next] at hs
          split at hs
          next hval =>
            simp only [Option.some.injEq, Prod.mk.injEq] at hs
            rcases hs with ⟨rfl, rfl, rfl⟩
            rcases hlook.snapshot.of_isValid hval hv with ⟨hh, rfl⟩
            have hallow : finiteMap.allows s.tree.content (.find k)
                ((s.tree.node n).findValue c k) := fun u hu =>
              findValue_spec h hn.reached.lt_count hn.isLeaf hn.reached.low_le hh u hu
            exact ⟨l, stepped_of_read h hheld trivial ⟨⟨rfl, hallow⟩, rfl, rfl⟩⟩
          · have hleaf : Holds c s l i (.leaf (.find k) path n) := hn
            exact stepped_of_look h hheld hleaf rfl hs
      | acquire o path n =>
          simp only [next, Option.map_eq_some_iff, Prod.mk.injEq] at hs
          rcases hs with ⟨s1, hlock, rfl, rfl, rfl⟩
          rcases VersionedTree.lock_eq hlock with ⟨_, rfl⟩
          rcases ha with ⟨hn, hh⟩
          exact ⟨_, stepped_of_lock h hheld hlock ⟨⟨⟨hn.key_lt, hn.reached, hn.isLeaf, hn.onPath⟩,
            hh⟩, Slots.store_self _ _ _⟩ rfl⟩
      | mutate o path n =>
          rcases stepped_of_mutate h hheld ha with ⟨l', hstep⟩
          simp only [next, Option.some.injEq, Prod.mk.injEq] at hs
          rcases hs with ⟨rfl, rfl, rfl⟩
          exact ⟨l', hstep⟩
      | parent o path n k x =>
          simp only [next, Option.map_eq_some_iff, Prod.mk.injEq] at hs
          rcases hs with ⟨s1, hlock, rfl, rfl, rfl⟩
          rcases VersionedTree.lock_eq hlock with ⟨_, rfl⟩
          exact ⟨_, stepped_of_lock h hheld hlock ⟨ha, Slots.store_self _ _ _⟩ rfl⟩
      | parentHigh o path n k x =>
          simp only [next] at hs
          split at hs
          next hh =>
            have hright : Holds c s l i (.parentRight o path n k x) := ⟨ha, hh⟩
            exact stepped_of_look h hheld hright rfl hs
          · have hins : Holds c s l i (.parentInsert o path n k x) := ha
            exact stepped_of_look h hheld hins rfl hs
      | parentRight o path n k x =>
          rcases ha with ⟨⟨⟨hn, hl, hpend, hlv, hp⟩, hhold⟩, hh⟩
          rcases h.right_move hn hpend.key_lt hh with ⟨r, h1, h2, _, h4, h5⟩
          simp only [next, Latched.moveRight, h1, Option.some.injEq, Prod.mk.injEq] at hs
          rcases hs with ⟨rfl, rfl, rfl⟩
          rw [← h4] at hlv hp
          have hrel : Holds c s l i (.release n (.parent o path r k x)) :=
            ⟨⟨h2, h5.trans hl, hpend, hlv, hp⟩, hhold⟩
          exact ⟨l, stepped_of_read h hheld hrel ⟨rfl, rfl⟩⟩
      | parentInsert o path n k x =>
          rcases stepped_of_insert h hheld ha with ⟨t, up, l', h1, hstep⟩
          simp only [next, h1, Option.some.injEq, Prod.mk.injEq] at hs
          rcases hs with ⟨rfl, rfl, rfl⟩
          exact ⟨l', hstep⟩
      | release n pc =>
          simp only [next, Option.some.injEq, Prod.mk.injEq] at hs
          rcases hs with ⟨rfl, rfl, rfl⟩
          rcases ha with ⟨hpc, hhold⟩
          exact ⟨{ l with holder := Slots.store l.holder n none }, h,
            moves_of_unlock _ hheld hhold, holds_resume hpc, rfl, status_resume pc⟩
      | newRoot o k x =>
          rcases createNewRoot_spec h ha with ⟨g', h1, h2, h3, _⟩
          simp only [next, Option.some.injEq, Prod.mk.injEq] at hs
          rcases hs with ⟨rfl, rfl, rfl⟩
          have hframe : ∀ m < s.tree.count,
              (s.tree.createNewRoot s.tree.root x k).node m = s.tree.node m :=
            fun m hm => (createNewRoot_isNewRoot s.tree s.tree.root x k).frame m hm.ne
          have hmoves : Moves c i s l none
              { s with tree := s.tree.createNewRoot s.tree.root x k } { l with ghost := g' } := by
            refine ⟨hheld, ⟨h2, fun _ _ _ hm => hm, Or.inr ⟨rfl, fun m hm _ => hframe m hm⟩⟩, ?_⟩
            intro m q hm _ hq _
            show q.key < ((s.tree.createNewRoot s.tree.root x k).node m).highKey
            rw [hframe m hm]
            exact hq
          exact ⟨{ l with ghost := g' }, h1, hmoves, trivial, h3, rfl⟩
      | done o r =>
          simp only [next, Option.some.injEq, Prod.mk.injEq] at hs
          rcases hs with ⟨rfl, rfl, rfl⟩
          exact ⟨l, stepped_of_read h hheld trivial ⟨rfl, rfl, rfl⟩⟩

/-! ## Runs -/

/-- The invariant of the shared state. -/
def InvHeld (c : Capacity) (s : VersionedTree) (l : Latches Nat) : Prop :=
  Inv c s.tree l.ghost ∧ Held s.version l.holder

theorem safe {memory : Nat → Memory} {w : World}
    (hw : Reachable (next c) (Careful c) (init memory) w) :
    Safe finiteMap (fun s => s.tree.content) Pc.status (InvHeld c) (Holds c) w := by
  refine safe_of_reachable hw ⟨⟨Ghost.initial Nat, fun _ => none⟩,
    ⟨inv_empty c memory, held_empty⟩, fun _ => trivial, ?_⟩ ?_
  · exact tracks_empty memory
  · intro w i a l s' pc' e hok h hall hs
    rcases next_spec h.1 h.2 (hall i) hok.1 hs with ⟨l', hstep⟩
    exact ⟨l', ⟨hstep.inv, hstep.moves.held⟩, hstep.holds,
      fun j hj => (hall j).moves h.2 hstep.moves hj (hok.2 j hj), hstep.simulates⟩

/-- In every run in which no leaf section cuts off the key of a writer that has chosen its
leaf and not yet acquired it, the writes are on the leaves that cover their keys, the calls
are linearized, and no thread follows a null pointer. -/
theorem optimistic_writes_covered (c : Capacity) (memory : Nat → Memory) (w : World)
    (hw : Reachable (next c) (Careful c) (init memory) w) :
    (∀ i a o n, leafWrite (w.thread i) a = some (o, n) → w.shared.tree.Covers n o.key) ∧
      Explains w.history w.shared.tree.content ∧
      (∀ i, status w.history i = (w.thread i).status) ∧
      ∀ i o, w.thread i ≠ .crashed o := by
  rcases safe hw with ⟨l, ⟨hinv, _⟩, hall, hlegal, hstate, hstatus⟩
  have hcontent : state finiteMap w.history = w.shared.tree.content := hstate
  refine ⟨?_, hcontent ▸ explains_of_legal hlegal, hstatus, ?_⟩
  · intro i a o n hwrite
    have ha := hall i
    unfold leafWrite at hwrite
    split at hwrite
    next path m hpc =>
      simp only [Option.some.injEq, Prod.mk.injEq] at hwrite
      rcases hwrite with ⟨rfl, rfl⟩
      rw [hpc] at ha
      rcases ha with ⟨⟨hn, hh⟩, _⟩
      exact hinv.covers hn.reached.lt_count hn.isLeaf hn.reached.low_le hh
    · simp at hwrite
  · intro i o hc
    have ha := hall i
    rw [hc] at ha
    exact ha

/-- Two inserts fill the first leaf, and a third one has chosen it for its key. A fourth one
splits it at 20 before the third one acquires it. -/
def chosenAndSplit (waiting splitting : Nat) : List (Nat × Latched.Act) :=
  [(0, .call (.insert 10 1))] ++ List.replicate 9 (0, .go) ++ [(1, .call (.insert 20 2))] ++
    List.replicate 9 (1, .go) ++ [(2, .call (.insert waiting 3))] ++ List.replicate 6 (2, .go) ++
    [(3, .call (.insert splitting 4))] ++ List.replicate 11 (3, .go) ++ [(2, .go)]

/-- The split leaves key 5 where it was, and the third thread writes where its key belongs. -/
theorem optimistic_writes_covered_beside_split :
    ∃ w, Reachable (next .smallest) (Careful .smallest) (init fun _ => .zero) w ∧
      leafWrite (w.thread 2) .go = some (.insert 5 3, 0) ∧
      (w.shared.tree.node 0).highKey = 20 ∧ w.shared.tree.Covers 0 5 := by
  have hrun : (run (next .smallest) (ApartBelow Valid (Harmless .smallest) 4)
      (init fun _ => .zero) (chosenAndSplit 5 30)).map (fun w => (leafWrite (w.thread 2) .go,
        (w.shared.tree.node 0).highKey)) = some (some (.insert 5 3, 0), 20) := by decide
  rcases Option.map_eq_some_iff.mp hrun with ⟨w, hw, hstate⟩
  simp only [Prod.mk.injEq] at hstate
  have hreach : Reachable (next .smallest) (Careful .smallest) (init fun _ => .zero) w :=
    Reachable.of_run_apart .idle (fun s pc a => spares_none .smallest s.tree _) (fun _ _ => rfl) hw
  have hall := (optimistic_writes_covered .smallest _ w hreach).1
  exact ⟨w, hreach, hstate.1, hstate.2, hall 2 .go _ 0 hstate.1⟩

/-- The third insert returns, and then key 30 is looked up. -/
def returnAndFind : List (Nat × Latched.Act) :=
  List.replicate 4 (2, .go) ++ [(4, .call (.find 30))] ++ List.replicate 19 (4, .go)

/-- For key 30 the third insert writes into the leaf that now ends at 20, and a `find` that is
called after it has returned gives 0. -/
theorem optimistic_insert_lost :
    ∃ w w', Reachable (next .smallest) (fun w i a => Valid w.shared (w.thread i) a)
        (init fun _ => .zero) w ∧
      leafWrite (w.thread 2) .go = some (.insert 30 3, 0) ∧
      (w.shared.tree.node 0).highKey = 20 ∧
      run (next .smallest) (fun w i a => Valid w.shared (w.thread i) a) w returnAndFind =
        some w' ∧
      w'.history.take 4 = [(4, .ret (.find 30) 0), (4, .effect (.find 30) 0),
        (4, .invoke (.find 30)), (2, .ret (.insert 30 3) 0)] := by
  have hrun : (run (next .smallest) (fun w i a => Valid w.shared (w.thread i) a)
      (init fun _ => .zero) (chosenAndSplit 30 5)).map (fun w => (leafWrite (w.thread 2) .go,
        (w.shared.tree.node 0).highKey)) = some (some (.insert 30 3, 0), 20) := by decide
  have hrest : (run (next .smallest) (fun w i a => Valid w.shared (w.thread i) a)
      (init fun _ => .zero) (chosenAndSplit 30 5)).bind (fun w => (run (next .smallest)
        (fun w i a => Valid w.shared (w.thread i) a) w returnAndFind).map
        fun w => w.history.take 4) = some [(4, .ret (.find 30) 0), (4, .effect (.find 30) 0),
        (4, .invoke (.find 30)), (2, .ret (.insert 30 3) 0)] := by decide
  rcases Reachable.of_run_run hrun hrest with ⟨w, w', hw, hstate, hw', hend⟩
  simp only [Prod.mk.injEq] at hstate
  exact ⟨w, w', hw, hstate.1, hstate.2, hw', hend⟩

end BLinkTree.Optimistic

import BLinkTree.Latched.Sequential
import BLinkTree.Shape

/-! # The structure of sequential trees

An insert of one thread alone. The path holds the ancestors of the node that is
split, level by level up to the root, so every separator comes to the node it belongs
to and the root grows only from its own level.
-/

namespace BLinkTree.Latched

open Linearization Interleaving

variable {c : Capacity} {t t' : Tree} {g g' : Ghost Nat}

/-- The nodes of a path are on the levels from above `l` to the root, and none of them
starts after key `b`. -/
def Ascends (t : Tree) (g : Ghost Nat) : Nat → Nat → List Nat → Prop
  | l, _, [] => l = g.level t.root
  | l, b, p :: ps => p < t.count ∧ g.level p = l + 1 ∧ g.low p ≤ b ∧
      Ascends t g (g.level p) (g.low p) ps

theorem Ascends.mono {l b b' : Nat} {path : List Nat} (h : Ascends t g l b path) (hb : b ≤ b') :
    Ascends t g l b' path := by
  cases path with
  | nil => exact h
  | cons p ps =>
      rcases h with ⟨h1, h2, h3, h4⟩
      exact ⟨h1, h2, by omega, h4⟩

theorem Ascends.evolves {i l b : Nat} {path : List Nat} (h : Ascends t g l b path)
    (hinv : Inv c t g) (he : Evolves i t g t' g') (hroot : t'.root = t.root) :
    Ascends t' g' l b path := by
  induction path generalizing l b with
  | nil =>
      show l = g'.level t'.root
      rw [hroot, he.level_eq _ hinv.root_lt]
      exact h
  | cons p ps ih =>
      rcases h with ⟨h1, h2, h3, h4⟩
      refine ⟨lt_of_lt_of_le h1 he.count_le, ?_, ?_, ?_⟩
      · rw [he.level_eq p h1, h2]
      · rw [he.low_eq p h1]
        exact h3
      · rw [he.level_eq p h1, he.low_eq p h1]
        exact ih h4

/-- A path of a node is also one of its right sibling. -/
theorem Ascends.right {up : Option (Nat × Nat)} {n r : Nat} {path : List Nat}
    (hp : Ascends t g (g.level n) (g.low n) path) (h : Strict c t g up) (hn : n < t.count)
    (hr : (t.node n).rightSibling = some r) : Ascends t g (g.level r) (g.low r) path := by
  rcases (h.inv.node n hn).right_some r hr with ⟨_, _, hlv, hlow⟩
  have hlt := h.tiled.low_lt_highKey h.inv hn
  rw [hlv]
  exact hp.mono (by omega)

/-- What an insert that runs alone knows between two sections. -/
def Routed (t : Tree) (g : Ghost Nat) : Pc → Prop
  | .start o => (∃ k v, o = .insert k v) ∧ o.key < maxKey
  | .inner o path n => (∃ k v, o = .insert k v) ∧ o.key < maxKey ∧ Reached t g n o.key ∧
      (t.node n).isLeaf = false ∧ Ascends t g (g.level n) (g.low n) path
  | .leaf o path n => (∃ k v, o = .insert k v) ∧ o.key < maxKey ∧ Reached t g n o.key ∧
      (t.node n).isLeaf = true ∧ Ascends t g (g.level n) (g.low n) path
  | .parent _ path n s x => Pending t g 0 s x ∧ n < t.count ∧ g.level x + 1 = g.level n ∧
      g.low n ≤ s ∧ Ascends t g (g.level n) (g.low n) path
  | .newRoot _ s x => Pending t g 0 s x ∧ g.level x = g.level t.root
  | .done _ _ => True
  | _ => False

/-- The invariant of an insert that runs alone. -/
def Routes (c : Capacity) (t : Tree) (pc : Pc) : Prop :=
  ∃ g : Ghost Nat, Strict c t g pc.carried ∧ Routed t g pc

theorem routed_enter {o : Op} (ho : ∃ k v, o = .insert k v) (hk : o.key < maxKey)
    {path : List Nat} {n : Nat} (hr : Reached t g n o.key)
    (hp : Ascends t g (g.level n) (g.low n) path) (h : Strict c t g none) :
    Routes c t (enter t o path (some n)) := by
  rcases enter_cases t o path n with ⟨hl, he⟩ | ⟨hl, he⟩
  · rw [he]
    exact ⟨g, h, ho, hk, hr, hl, hp⟩
  · rw [he]
    exact ⟨g, h, ho, hk, hr, hl, hp⟩

/-- A separator of a new node on the level of `n` is carried along the path of `n`. -/
theorem routed_propagate {o : Op} {path : List Nat} {l b s x : Nat}
    (h : Strict c t g (some (x, s))) (hp : Pending t g 0 s x) (hx : g.level x = l) (hb : b ≤ s)
    (ha : Ascends t g l b path) : Routes c t (propagate o path (some (x, s))) := by
  cases path with
  | nil => exact ⟨g, h, hp, hx.trans ha⟩
  | cons p ps =>
      rcases ha with ⟨h1, h2, h3, h4⟩
      exact ⟨g, h, hp, h1, by omega, by omega, h4⟩

/-- The leaf section of an insert. -/
theorem routes_leafSection {k n : Nat} {v : Value} {path : List Nat} (h : Strict c t g none)
    (hr : Reached t g n k) (hl : (t.node n).isLeaf = true) (hh : k < (t.node n).highKey)
    (hp : Ascends t g (g.level n) (g.low n) path) :
    Routes c (t.insertIntoLeaf c n k v).1
      (propagate (.insert k v) path (t.insertIntoLeaf c n k v).2) := by
  have hn := hr.lt_count
  have hi := h.inv.node n hn
  have hmem := Node.mem_liveKeys_iff hi.wellFormed.monotone k
  rcases insertIntoLeaf_cases c t n k v with ⟨_, he⟩ | ⟨hk, hf, he⟩ | ⟨hk, hf, he⟩
  · rw [he]
    exact ⟨g, h, trivial⟩
  · have hk' : k ∉ (t.node n).liveKeys := fun hc => hk (hmem.mp hc)
    have hw : IsWrite t (t.setNode n ((t.node n).insertValue ((t.node n).index k) v k)) n :=
      isWrite_setNode rfl rfl rfl
    have hinv := h.inv.writeLeaf hn hw hl
      (by rw [setNode_node_self]; exact hi.wellFormed.insertValue hl hf hk' v)
      (by
        rw [setNode_node_self, Node.entries_insertValue hl hi.wellFormed.monotone k v]
        exact NodeInv.insertNew_range h.inv hn hl hr.low_le hh v)
    rw [he]
    exact ⟨g, h.writeLeaf hinv hn hw hl rfl rfl, trivial⟩
  · rcases splitLeafNode_spec h.inv 0 hn hl hr.low_le hh v (fun hc => hk (hmem.mp hc)) hf with
      ⟨hd, _⟩
    have hs := h.splitLeaf hn hl hd (by rw [splitLeafNode_eq]; rfl)
      (by rw [splitLeafNode_eq]; rfl)
    rw [he]
    refine routed_propagate hs hd.pending (l := g.level n) (Slots.store_self _ _ _) hd.low_lt.le ?_
    exact hp.evolves h.inv hd.evolves hd.split.root

/-- One section of an insert that runs alone. -/
theorem routes_next {pc pc' : Pc} {e : Option (Event Op Value)} (h : Routes c t pc)
    (hres : pc.result = none) (hs : next c t pc .go = some (t', pc', e)) : Routes c t' pc' := by
  rcases h with ⟨g, h, ha⟩
  cases pc with
  | idle => exact ha.elim
  | crashed o => exact ha.elim
  | done o r => simp [Pc.result] at hres
  | start o =>
      rcases ha with ⟨ho, hk⟩
      simp only [next, Option.some.injEq, Prod.mk.injEq] at hs
      rcases hs with ⟨rfl, rfl, _⟩
      exact routed_enter ho hk (Reached.root h.inv _) rfl h
  | inner o path n =>
      rcases ha with ⟨ho, hk, hr, hl, hp⟩
      simp only [next] at hs
      split at hs
      next hh =>
        rcases h.inv.right_move hr.lt_count hk hh with ⟨r, h1, h2, h3, _, h5⟩
        simp only [moveRight, h1, Option.some.injEq, Prod.mk.injEq] at hs
        rcases hs with ⟨rfl, rfl, _⟩
        exact ⟨g, h, ho, hk, ⟨h2, h3⟩, h5.trans hl, hp.right h hr.lt_count h1⟩
      next hh =>
        rcases (h.inv.node n hr.lt_count).child hl hr.low_le with ⟨y, h1, h2, h3, _⟩
        simp only [h1, Option.some.injEq, Prod.mk.injEq] at hs
        rcases hs with ⟨rfl, rfl, _⟩
        have hmem := (h.inv.node n hr.lt_count).child_mem hl h1
        rcases h.tiled.children_spec h.inv hr.lt_count hl hmem with ⟨_, k2, k3, _⟩
        refine routed_enter ho hk ⟨h2, h3⟩ ?_ h
        rcases ho with ⟨k, v, rfl⟩
        exact ⟨hr.lt_count, k2.symm, k3, hp⟩
  | leaf o path n =>
      rcases ha with ⟨ho, hk, hr, hl, hp⟩
      by_cases hh : (t.node n).highKey ≤ o.key
      · simp only [next, if_pos hh] at hs
        rcases h.inv.right_move hr.lt_count hk hh with ⟨r, h1, h2, h3, _, h5⟩
        simp only [moveRight, h1, Option.some.injEq, Prod.mk.injEq] at hs
        rcases hs with ⟨rfl, rfl, _⟩
        exact ⟨g, h, ho, hk, ⟨h2, h3⟩, h5.trans hl, hp.right h hr.lt_count h1⟩
      · rw [next_leaf (not_le.mp hh)] at hs
        simp only [Option.some.injEq, Prod.mk.injEq] at hs
        rcases hs with ⟨rfl, rfl, _⟩
        rcases ho with ⟨k, v, rfl⟩
        exact routes_leafSection h hr hl (not_le.mp hh) hp
  | parent o path n s x =>
      rcases ha with ⟨hpend, hn, hlv, hlow, hp⟩
      simp only [next] at hs
      split at hs
      next hh =>
        rcases h.inv.right_move hn hpend.key_lt hh with ⟨r, h1, h2, h3, h4, _⟩
        simp only [moveRight, h1, Option.some.injEq, Prod.mk.injEq] at hs
        rcases hs with ⟨rfl, rfl, _⟩
        exact ⟨g, h, hpend, h2, by omega, h3, hp.right h hn h1⟩
      next hh =>
        have hb : Belongs t g n s x := ⟨hn, hlv, hlow, not_le.mp hh⟩
        rcases insertIntoInner_cases h.inv hn (hb.inner h.inv) hpend (by omega) with
          ⟨t1, he, hins, hinv, _⟩ | ⟨t1, k, he, hd, hinv, hev, _, hpend'⟩
        · simp only [he, Option.some.injEq, Prod.mk.injEq] at hs
          rcases hs with ⟨rfl, rfl, _⟩
          exact ⟨_, h.insert hpend.lt_count hb hins hinv, trivial⟩
        · simp only [he, Option.some.injEq, Prod.mk.injEq] at hs
          rcases hs with ⟨rfl, rfl, _⟩
          have hup := h.tiled.up_range h.inv hpend.lt_count hb hd
          refine routed_propagate (h.split hpend.lt_count hb hd hinv hev) hpend' (l := g.level n)
            (Slots.store_self _ _ _) hup.1.le ?_
          exact hp.evolves h.inv hev hd.split.root
  | newRoot o s x =>
      rcases ha with ⟨hpend, hlv⟩
      simp only [next, Option.some.injEq, Prod.mk.injEq] at hs
      rcases hs with ⟨rfl, rfl, _⟩
      have hinv := (h.inv.newRoot hpend (createNewRoot_isNewRoot t t.root x s)).1
      exact ⟨_, h.newRoot hpend.lt_count hlv hinv, trivial⟩

/-- One insert keeps the strict invariant. -/
theorem call_strict {fuel k : Nat} {v r : Value} (h : Strict c t g none) (hk : k < maxKey)
    (hc : call c fuel t (.insert k v) = some (t', r)) : ∃ g' : Ghost Nat, Strict c t' g' none := by
  have h0 : Routes c t (.start (.insert k v)) := ⟨g, h, ⟨k, v, rfl⟩, hk⟩
  have hend : ∃ pc, Routes c t' pc ∧ pc.result = some r :=
    solo_invariant (P := Routes c) (fun _ _ _ _ _ hP hres hs => routes_next hP hres hs) h0 hc
  rcases hend with ⟨pc, ⟨g', h', _⟩, hres⟩
  rcases result_eq_some hres with ⟨o, rfl⟩
  exact ⟨g', h'⟩

/-- What every call keeps holds after every call of a sequence. -/
theorem calls_invariant {I : Tree → Prop} {fuel : Nat} {ops : List Op} {rs : List (Tree × Value)}
    (hstep : ∀ t o t' r, o ∈ ops → I t → call c fuel t o = some (t', r) → I t') (h0 : I t)
    (h : calls c fuel t ops = some rs) : ∀ r ∈ rs, I r.1 := by
  induction ops generalizing t rs with
  | nil =>
      obtain rfl : [] = rs := by simpa [calls] using h
      simp
  | cons o ops ih =>
      simp only [calls, Option.bind_eq_bind, Option.bind_eq_some_iff] at h
      rcases h with ⟨⟨t1, r1⟩, h1, rest, h2, h3⟩
      obtain rfl : (t1, r1) :: rest = rs := by simpa using h3
      have h1' := hstep t o t1 r1 (List.mem_cons_self ..) h0 h1
      intro x hx
      rcases List.mem_cons.mp hx with rfl | hx
      · exact h1'
      · exact ih (fun t o t' r ho => hstep t o t' r (List.mem_cons_of_mem _ ho)) h1' h2 x hx

/-- Sequences of inserts from one thread return, and the fresh tree and the tree after
every insert have the structure of a B-link tree. -/
theorem inserts_structured (c : Capacity) (memory : Nat → Memory) (entries : List (Nat × Value))
    (hk : ∀ e ∈ entries, e.1 < maxKey) :
    ∃ fuel rs, (∀ fuel' ≥ fuel, calls c fuel' (Tree.empty memory)
        (entries.map fun e => .insert e.1 e.2) = some rs) ∧
      ∀ t ∈ Tree.empty memory :: rs.map Prod.fst, Structured c t := by
  have hkeys : ∀ o ∈ entries.map (fun e => Op.insert e.1 e.2), o.key < maxKey := by
    intro o ho
    rcases List.mem_map.mp ho with ⟨e, he, rfl⟩
    exact hk e he
  rcases calls_refine (g := Ghost.initial Nat) (inv_empty c memory) hkeys with ⟨fuel, rs, h1, _⟩
  have hstrict : ∀ r ∈ rs, ∃ g : Ghost Nat, Strict c r.1 g none := by
    refine calls_invariant (I := fun t => ∃ g : Ghost Nat, Strict c t g none) ?_
      ⟨_, strict_empty c memory⟩ h1
    intro t o t' r ho hI hc
    rcases List.mem_map.mp ho with ⟨e, he, rfl⟩
    rcases hI with ⟨g, h⟩
    exact call_strict h (hk e he) hc
  refine ⟨fuel, rs, fun fuel' hf => calls_mono hf h1, fun t ht => ?_⟩
  rcases List.mem_cons.mp ht with rfl | ht
  · have hfresh : Strict c (Tree.empty memory) (Ghost.initial Nat) none := strict_empty c memory
    exact hfresh.structured
  · rcases List.mem_map.mp ht with ⟨r, hr, rfl⟩
    rcases hstrict r hr with ⟨g, h⟩
    exact h.structured

theorem inserts_structured_two_levels :
    ∃ fuel rs, (∀ fuel' ≥ fuel, calls .smallest fuel' (Tree.empty fun _ => .zero)
        ([(5, 50), (3, 30), (9, 90), (3, 31)].map fun e => .insert e.1 e.2) = some rs) ∧
      ∀ t ∈ Tree.empty (fun _ => .zero) :: rs.map Prod.fst, Structured .smallest t :=
  inserts_structured .smallest (fun _ => .zero) [(5, 50), (3, 30), (9, 90), (3, 31)] (by decide)

end BLinkTree.Latched

import BLinkTree.Structure
import BLinkTree.Optimistic.Fields

/-! # Writers among each other

What the writers keep of the memory: a node that nobody holds and nobody is creating is
what the tree says, a node that is being created is known to its creator only, and the
writes that a writer still has to do complete its nodes.
-/

namespace BLinkTree.Optimistic.Fields

open Interleaving VersionLock

/-- The auxiliary value of the proofs: the holders of the latches, the creator of every node
that is not in the tree yet, and the thread that has locked the tree. -/
structure Aux extends Latches Nat where
  creator : Nat → Option Nat
  rooter : Option Nat

/-- Thread `i` may write node `n`. -/
def Aux.Owns (a : Aux) (i n : Nat) : Prop := a.holder n = some i ∨ a.creator n = some i

/-- A valid read of node `n` may lead to node `m`. -/
def Leads (n : Node) (m : Nat) : Prop := n.rightSibling = some m ∨ some m ∈ n.children

/-- The shared part of the invariant. -/
structure Coherent (c : Capacity) (s : Shared) (a : Aux) : Prop where
  inv : Inv c s.tree a.ghost
  held : Held s.version a.holder
  level : ∀ n < s.tree.count, s.level n = a.ghost.level n
  clean : ∀ n, a.holder n = none → a.creator n = none → s.memory n = s.tree.node n
  kind : ∀ n < s.tree.count, a.creator n = none →
    (s.memory n).isLeaf = (s.tree.node n).isLeaf
  outside : ∀ n, s.tree.count ≤ n → a.holder n = none ∧ a.creator n = none
  unheld : ∀ n i, a.creator n = some i → a.holder n = none
  hidden : ∀ n < s.tree.count, ∀ m i, Leads (s.tree.node n) m → a.creator m = some i →
    a.Owns i n
  root_lt : s.root < s.tree.count
  root_low : a.ghost.low s.root = 0
  root_creator : a.creator s.root = none
  root_eq : a.rooter = none → s.root = s.tree.root
  locked : s.locked = true ↔ a.rooter ≠ none

/-- The node that a thread holds. -/
def Pc.holds : Pc → Option Nat
  | .writer (.acquired n) => some n
  | .writer (.writing n _ _) => some n
  | .writer (.parent n _ _) => some n
  | _ => none

/-- A thread owns no other nodes than those its place in the program says. -/
structure Owned (a : Aux) (i : Nat) (pc : Pc) : Prop where
  holds : ∀ n, a.holder n = some i → pc.holds = some n
  builds : ∀ n, a.creator n = some i → pc.builds = some n

/-- Thread `i` holds node `n` and has not changed it. -/
structure Acquired (s : Shared) (a : Aux) (i n : Nat) : Prop where
  lt_count : n < s.tree.count
  holder : a.holder n = some i
  memory : s.memory n = s.tree.node n

/-- Thread `i` carries separator `x` of a split that is complete. -/
structure Carries (s : Shared) (a : Aux) (i x k : Nat) : Prop where
  pending : Pending s.tree a.ghost i k x
  creator : a.creator x = none

/-- Thread `i` is inside an operation on node `n`. -/
structure Writing (s : Shared) (a : Aux) (i n : Nat) (rest : List (Nat × Write))
    (up : Option (Nat × Nat)) : Prop where
  lt_count : n < s.tree.count
  holder : a.holder n = some i
  performs : Performs s.memory rest n (up.map Prod.fst) s.tree
  posts : ∀ x k, up = some (x, k) → a.creator x = some i ∧ Pending s.tree a.ghost i k x

/-- Thread `i` is inside `create_new_root` with root `r`. -/
structure Rooting (s : Shared) (a : Aux) (i r : Nat) (rest : List (Nat × Write)) : Prop where
  rooter : a.rooter = some i
  root : s.tree.root = r
  creator : a.creator r = some i
  targets : ∀ w ∈ rest, w.1 = r
  node : runWrites s.memory rest r = s.tree.node r

/-- What thread `i` knows as a writer. -/
def Knows (s : Shared) (a : Aux) (i : Nat) : Writer → Prop
  | .acquired n => Acquired s a i n
  | .writing n rest up => Writing s a i n rest up
  | .carrying x k => Carries s a i x k
  | .parent n x k => Acquired s a i n ∧ Carries s a i x k
  | .rooting r rest => Rooting s a i r rest
  | .rooted => a.rooter = some i ∧ s.root = s.tree.root

/-! ## What the others see of a step -/

/-- A step of thread `j` leaves the nodes of the others alone. -/
structure Disturbs (j : Nat) (s : Shared) (a : Aux) (s' : Shared) (a' : Aux) : Prop where
  interferes : Interferes j s.toVersionedTree a.toLatches s'.toVersionedTree a'.toLatches
  holder : ∀ i, i ≠ j → ∀ n, a'.holder n = some i ↔ a.holder n = some i
  creator : ∀ i, i ≠ j → ∀ n, a'.creator n = some i ↔ a.creator n = some i
  known : ∀ n < s.tree.count, a.creator n = none → a'.creator n = none
  memory : ∀ i, i ≠ j → ∀ n, a.Owns i n → s'.memory n = s.memory n
  node : ∀ i, i ≠ j → ∀ n, a.Owns i n → s'.tree.node n = s.tree.node n
  rooter : ∀ i, i ≠ j → a.rooter = some i →
    a'.rooter = some i ∧ s'.root = s.root ∧ s'.tree.root = s.tree.root

variable {c : Capacity} {s s' : Shared} {a a' : Aux} {i j n x k : Nat}

theorem Disturbs.refl (j : Nat) (s : Shared) (a : Aux) : Disturbs j s a s a :=
  ⟨Interferes.refl j _ _, fun _ _ _ => Iff.rfl, fun _ _ _ => Iff.rfl, fun _ _ h => h,
    fun _ _ _ _ => rfl, fun _ _ _ _ => rfl, fun _ _ h => ⟨h, rfl, rfl⟩⟩

theorem Owned.disturbs {pc : Pc} (h : Owned a i pc) (hd : Disturbs j s a s' a') (hij : i ≠ j) :
    Owned a' i pc :=
  ⟨fun n hn => h.holds n ((hd.holder i hij n).mp hn),
    fun n hn => h.builds n ((hd.creator i hij n).mp hn)⟩

theorem Acquired.disturbs (h : Acquired s a i n) (hd : Disturbs j s a s' a') (hij : i ≠ j) :
    Acquired s' a' i n := by
  refine ⟨lt_of_lt_of_le h.lt_count hd.interferes.evolves.count_le, ?_, ?_⟩
  · exact (hd.holder i hij n).mpr h.holder
  · rw [hd.memory i hij n (Or.inl h.holder), hd.node i hij n (Or.inl h.holder), h.memory]

theorem Carries.disturbs (h : Carries s a i x k) (hd : Disturbs j s a s' a') (hij : i ≠ j) :
    Carries s' a' i x k :=
  ⟨h.pending.evolves hd.interferes.evolves hij, hd.known x h.pending.lt_count h.creator⟩

/-- The writes of others do not reach the nodes of thread `i`. -/
theorem Disturbs.runWrites_eq (hd : Disturbs j s a s' a') (hij : i ≠ j) (hn : a.Owns i n)
    (l : List (Nat × Write)) : runWrites s'.memory l n = runWrites s.memory l n := by
  rw [runWrites_apply, runWrites_apply, hd.memory i hij n hn]

theorem Writing.disturbs {rest : List (Nat × Write)} {up : Option (Nat × Nat)}
    (h : Writing s a i n rest up) (hd : Disturbs j s a s' a') (hij : i ≠ j) :
    Writing s' a' i n rest up := by
  refine ⟨lt_of_lt_of_le h.lt_count hd.interferes.evolves.count_le, ?_, ?_, ?_⟩
  · exact (hd.holder i hij n).mpr h.holder
  · refine ⟨h.performs.targets, ?_, ?_⟩
    · rw [hd.runWrites_eq hij (Or.inl h.holder), hd.node i hij n (Or.inl h.holder)]
      exact h.performs.node
    · intro m hm
      rcases Option.map_eq_some_iff.mp hm with ⟨⟨y, k⟩, hup, rfl⟩
      have hy : a.Owns i y := Or.inr (h.posts y k hup).1
      rw [hd.runWrites_eq hij hy, hd.node i hij y hy]
      exact h.performs.new y hm
  · intro y k hup
    rcases h.posts y k hup with ⟨h1, h2⟩
    exact ⟨(hd.creator i hij y).mpr h1, h2.evolves hd.interferes.evolves hij⟩

theorem Rooting.disturbs {r : Nat} {rest : List (Nat × Write)} (h : Rooting s a i r rest)
    (hd : Disturbs j s a s' a') (hij : i ≠ j) : Rooting s' a' i r rest := by
  rcases hd.rooter i hij h.rooter with ⟨h1, _, h3⟩
  refine ⟨h1, h3.trans h.root, (hd.creator i hij r).mpr h.creator, h.targets, ?_⟩
  rw [hd.runWrites_eq hij (Or.inr h.creator), hd.node i hij r (Or.inr h.creator)]
  exact h.node

theorem Knows.disturbs {w : Writer} (h : Knows s a i w) (hd : Disturbs j s a s' a')
    (hij : i ≠ j) : Knows s' a' i w := by
  cases w with
  | acquired n => exact Acquired.disturbs h hd hij
  | writing n rest up => exact Writing.disturbs h hd hij
  | carrying x k => exact Carries.disturbs h hd hij
  | parent n x k => exact ⟨Acquired.disturbs h.1 hd hij, Carries.disturbs h.2 hd hij⟩
  | rooting r rest => exact Rooting.disturbs h hd hij
  | rooted =>
      rcases h with ⟨hr, he⟩
      rcases hd.rooter i hij hr with ⟨h1, h2, h3⟩
      exact ⟨h1, by rw [h2, h3, he]⟩

/-! ## The steps of a writer -/

/-- What thread `i` knows behind a step of a writer. -/
def KnowsPc (s : Shared) (a : Aux) (i : Nat) : Pc → Prop
  | .idle => True
  | .reader _ => False
  | .writer w => Knows s a i w

/-- What a step of thread `j` leaves. -/
def Stepped (c : Capacity) (j : Nat) (s : Shared) (a : Aux) (s' : Shared) (pc : Pc) : Prop :=
  ∃ a', Coherent c s' a' ∧ Disturbs j s a s' a' ∧ Owned a' j pc ∧ KnowsPc s' a' j pc

/-- A node has one owner. -/
theorem Coherent.owner_unique (h : Coherent c s a) (hi : a.Owns i n) (hj : a.Owns j n) : i = j := by
  rcases hi with hi | hi
  · rcases hj with hj | hj
    · exact Option.some.inj (hi.symm.trans hj)
    · rw [h.unheld n j hj] at hi
      exact absurd hi (by simp)
  · rcases hj with hj | hj
    · rw [h.unheld n i hi] at hj
      exact absurd hj (by simp)
    · exact Option.some.inj (hi.symm.trans hj)

theorem Coherent.owned_lt (h : Coherent c s a) (hi : a.Owns i n) : n < s.tree.count := by
  by_contra hn
  rcases h.outside n (not_lt.mp hn) with ⟨h1, h2⟩
  rcases hi with hi | hi
  · rw [h1] at hi
    exact absurd hi (by simp)
  · rw [h2] at hi
    exact absurd hi (by simp)

theorem Coherent.holder_of_free (h : Coherent c s a) (hn : isLocked (s.version n) = false) :
    a.holder n = none := by
  by_contra hne
  rw [(h.held n).mpr hne] at hn
  exact absurd hn (by decide)

/-- Thread `j` acquires node `n`. -/
def Aux.acquire (a : Aux) (j n : Nat) : Aux :=
  { a with holder := Slots.store a.holder n (some j) }

theorem acquire_holder_self (a : Aux) (j n : Nat) : (a.acquire j n).holder n = some j :=
  Slots.store_self _ _ _

theorem acquire_holder_of_ne (a : Aux) (j : Nat) {m : Nat} (h : m ≠ n) :
    (a.acquire j n).holder m = a.holder m := Slots.store_of_ne _ _ h

theorem Coherent.acquire (h : Coherent c s a) (hn : n < s.tree.count)
    (hknown : a.creator n = none) (hfree : isLocked (s.version n) = false) (j : Nat) :
    Coherent c { s with toVersionedTree := s.unlock n } (a.acquire j n) := by
  have hnone := h.holder_of_free hfree
  refine ⟨h.inv, h.held.acquire j hfree, h.level, ?_, h.kind, ?_, ?_, ?_, h.root_lt, h.root_low,
    h.root_creator, h.root_eq, h.locked⟩
  · intro m hm hc
    by_cases hmn : m = n
    · rw [hmn, acquire_holder_self] at hm
      exact absurd hm (by simp)
    · rw [acquire_holder_of_ne a j hmn] at hm
      exact h.clean m hm hc
  · intro m hm
    have hmn : m ≠ n := fun he => absurd hn (not_lt.mpr (he ▸ hm))
    rw [acquire_holder_of_ne a j hmn]
    exact h.outside m hm
  · intro m i hc
    have hmn : m ≠ n := fun he => by
      rw [he] at hc
      exact absurd (hknown.symm.trans hc) (by simp)
    rw [acquire_holder_of_ne a j hmn]
    exact h.unheld m i hc
  · intro p hp m i hl hc
    rcases h.hidden p hp m i hl hc with ho | ho
    · have hpn : p ≠ n := fun he => by
        rw [he, hnone] at ho
        exact absurd ho (by simp)
      exact Or.inl ((acquire_holder_of_ne a j hpn).trans ho)
    · exact Or.inr ho

theorem Coherent.disturbs_acquire (h : Coherent c s a) (hfree : isLocked (s.version n) = false)
    (j : Nat) : Disturbs j s a { s with toVersionedTree := s.unlock n } (a.acquire j n) := by
  have hnone := h.holder_of_free hfree
  refine ⟨Interferes.acquire j _ _ hnone, ?_, fun _ _ _ => Iff.rfl, fun _ _ hc => hc,
    fun _ _ _ _ => rfl, fun _ _ _ _ => rfl, fun _ _ hr => ⟨hr, rfl, rfl⟩⟩
  intro i hi m
  by_cases hmn : m = n
  · rw [hmn, acquire_holder_self, hnone]
    simp [Ne.symm hi]
  · rw [acquire_holder_of_ne a j hmn]

/-- A thread without nodes acquires one. -/
theorem Owned.acquire {pc pc' : Pc} (h : Owned a j pc) (hpc : pc.holds = none)
    (hb : pc.builds = none) (hn : pc'.holds = some n) : Owned (a.acquire j n) j pc' := by
  refine ⟨fun m hm => ?_, fun m hm => ?_⟩
  · by_cases hmn : m = n
    · rw [hmn, hn]
    · rw [acquire_holder_of_ne a j hmn] at hm
      have hh := h.holds m hm
      rw [hpc] at hh
      exact absurd hh (by simp)
  · have hh := h.builds m hm
    rw [hb] at hh
    exact absurd hh (by simp)

theorem Coherent.acquired (h : Coherent c s a) (hn : n < s.tree.count)
    (hknown : a.creator n = none) (hfree : isLocked (s.version n) = false) (j : Nat) :
    Acquired { s with toVersionedTree := s.unlock n } (a.acquire j n) j n :=
  ⟨hn, acquire_holder_self a j n, h.clean n (h.holder_of_free hfree) hknown⟩

/-! ## Release -/

/-- The creators once the nodes of thread `j` are in the tree. -/
def Aux.reveal (a : Aux) (j : Nat) : Nat → Option Nat :=
  fun m => if a.creator m = some j then none else a.creator m

theorem reveal_eq_some {m : Nat} : a.reveal j m = some i ↔ i ≠ j ∧ a.creator m = some i := by
  unfold Aux.reveal
  split
  next h =>
    rw [h]
    simp only [reduceCtorEq, Option.some.injEq, false_iff]
    exact fun ⟨h1, h2⟩ => h1 h2.symm
  next h =>
    constructor
    · intro hi
      exact ⟨fun he => h (he ▸ hi), hi⟩
    · exact fun hi => hi.2

theorem creator_of_reveal {m : Nat} (h : a.reveal j m = none) :
    a.creator m = some j ∨ a.creator m = none := by
  unfold Aux.reveal at h
  split at h
  next hj => exact Or.inl hj
  next => exact Or.inr h

theorem reveal_of_none {m : Nat} (h : a.creator m = none) : a.reveal j m = none := by
  simp [Aux.reveal, h]

/-- Thread `j` releases node `n`. -/
def Aux.release (a : Aux) (j n : Nat) : Aux :=
  { a with holder := Slots.store a.holder n none, creator := a.reveal j }

theorem release_holder_self (a : Aux) (j n : Nat) : (a.release j n).holder n = none :=
  Slots.store_self _ _ _

theorem release_holder_of_ne (a : Aux) (j : Nat) {m : Nat} (h : m ≠ n) :
    (a.release j n).holder m = a.holder m := Slots.store_of_ne _ _ h

/-- All nodes of thread `j` are complete when it releases `n`. -/
theorem Coherent.release (h : Coherent c s a) (hn : a.holder n = some j)
    (hdone : ∀ m, a.Owns j m → s.memory m = s.tree.node m) :
    Coherent c { s with toVersionedTree := s.unlock n } (a.release j n) := by
  have hclean : ∀ m, (a.release j n).holder m = none → (a.release j n).creator m = none →
      s.memory m = s.tree.node m := by
    intro m hm hc
    rcases creator_of_reveal hc with hc | hc
    · exact hdone m (Or.inr hc)
    · by_cases hmn : m = n
      · rw [hmn]
        exact hdone n (Or.inl hn)
      · rw [release_holder_of_ne a j hmn] at hm
        exact h.clean m hm hc
  refine ⟨h.inv, h.held.release hn, h.level, hclean, ?_, ?_, ?_, ?_, h.root_lt, h.root_low,
    reveal_of_none h.root_creator, h.root_eq, h.locked⟩
  · intro m hm hc
    rcases creator_of_reveal hc with hc | hc
    · show (s.memory m).isLeaf = _
      rw [hdone m (Or.inr hc)]
      rfl
    · exact h.kind m hm hc
  · intro m hm
    rcases h.outside m hm with ⟨h1, h2⟩
    refine ⟨?_, reveal_of_none h2⟩
    by_cases hmn : m = n
    · rw [hmn, release_holder_self]
    · rw [release_holder_of_ne a j hmn, h1]
  · intro m i hc
    have hhold := h.unheld m i (reveal_eq_some.mp hc).2
    by_cases hmn : m = n
    · rw [hmn, release_holder_self]
    · rw [release_holder_of_ne a j hmn, hhold]
  · intro p hp m i hl hc
    rcases reveal_eq_some.mp hc with ⟨hij, hc⟩
    rcases h.hidden p hp m i hl hc with ho | ho
    · have hpn : p ≠ n := fun he => by
        rw [he, hn, Option.some.injEq] at ho
        exact hij ho.symm
      exact Or.inl ((release_holder_of_ne a j hpn).trans ho)
    · exact Or.inr (reveal_eq_some.mpr ⟨hij, ho⟩)

theorem disturbs_release (hn : a.holder n = some j) :
    Disturbs j s a { s with toVersionedTree := s.unlock n } (a.release j n) := by
  refine ⟨?_, ?_, ?_, ?_, fun _ _ _ _ => rfl, fun _ _ _ _ => rfl, fun _ _ hr => ⟨hr, rfl, rfl⟩⟩
  · exact Interferes.release hn
  · intro i hi m
    by_cases hmn : m = n
    · rw [hmn, release_holder_self, hn]
      simp [Ne.symm hi]
    · rw [release_holder_of_ne a j hmn]
  · intro i hi m
    exact reveal_eq_some.trans ⟨fun hc => hc.2, fun hc => ⟨hi, hc⟩⟩
  · exact fun m _ hc => reveal_of_none hc

theorem Owned.release {pc pc' : Pc} (h : Owned a j pc) (hn : pc.holds = some n) :
    Owned (a.release j n) j pc' := by
  refine ⟨fun m hm => ?_, fun m hm => absurd rfl (reveal_eq_some.mp hm).1⟩
  by_cases hmn : m = n
  · rw [hmn, release_holder_self] at hm
    exact absurd hm (by simp)
  · rw [release_holder_of_ne a j hmn] at hm
    have hh := h.holds m hm
    rw [hn, Option.some.injEq] at hh
    exact absurd hh.symm hmn

/-! ## One write -/

theorem Coherent.write (h : Coherent c s a) {w : Nat × Write} (hw : a.Owns j w.1)
    (hkind : a.holder w.1 = some j → w.2.creates = false) :
    Coherent c { s with memory := runWrite s.memory w } a := by
  refine ⟨h.inv, h.held, h.level, ?_, ?_, h.outside, h.unheld, h.hidden, h.root_lt, h.root_low,
    h.root_creator, h.root_eq, h.locked⟩
  · intro m hm hc
    have hne : m ≠ w.1 := fun he => by
      rw [← he] at hw
      rcases hw with hw | hw
      · exact absurd (hm.symm.trans hw) (by simp)
      · exact absurd (hc.symm.trans hw) (by simp)
    exact (runWrite_of_ne s.memory hne).trans (h.clean m hm hc)
  · intro m hm hc
    by_cases hmw : m = w.1
    · rw [hmw] at hm hc ⊢
      have hheld : a.holder w.1 = some j := by
        rcases hw with hw | hw
        · exact hw
        · exact absurd (hc.symm.trans hw) (by simp)
      have hstore : runWrite s.memory w w.1 = (s.memory w.1).store w.2 := Slots.store_self _ _ _
      show (runWrite s.memory w w.1).isLeaf = _
      rw [hstore, Node.isLeaf_store _ (hkind hheld)]
      exact h.kind w.1 hm hc
    · show (runWrite s.memory w m).isLeaf = _
      rw [runWrite_of_ne s.memory hmw]
      exact h.kind m hm hc

theorem Coherent.disturbs_write (h : Coherent c s a) {w : Nat × Write} (hw : a.Owns j w.1) :
    Disturbs j s a { s with memory := runWrite s.memory w } a := by
  refine ⟨Interferes.refl j _ _, fun _ _ _ => Iff.rfl, fun _ _ _ => Iff.rfl, fun _ _ hc => hc,
    ?_, fun _ _ _ _ => rfl, fun _ _ hr => ⟨hr, rfl, rfl⟩⟩
  intro i hi m hm
  have hne : m ≠ w.1 := fun he => hi (h.owner_unique hm (he ▸ hw))
  exact runWrite_of_ne s.memory hne

/-! ## The first step of an operation -/

theorem Inv.leads_lt {g : Ghost Nat} {t : Tree} (h : Inv c t g) {m : Nat} (hn : n < t.count)
    (hl : Leads (t.node n) m) : m < t.count := by
  have hi := h.node n hn
  rcases hl with hr | hm
  · exact (hi.right_some m hr).2.1
  · have hinner := (Node.mem_children.mp hm).1
    rw [Node.children_of_inner hinner] at hm
    rcases List.mem_cons.mp hm with heq | hm
    · rcases hi.first hinner with ⟨y, hy, hlt, _⟩
      rw [hy, Option.some.injEq] at heq
      rw [heq]
      exact hlt
    · rcases List.mem_map.mp hm with ⟨e, he, heq⟩
      rcases (hi.sep e he).2.2 with ⟨y, hy, hlt, _⟩
      rw [hy, Option.some.injEq] at heq
      rw [← heq]
      exact hlt

/-- Thread `j` begins an operation that creates `new`. -/
def Aux.begin (a : Aux) (j : Nat) (g : Ghost Nat) (new rooter : Option Nat) : Aux :=
  { a with
    ghost := g
    creator := fun m => if new = some m then some j else a.creator m
    rooter := rooter }

/-- An operation of thread `j` changes node `n`, if it has one, and creates `new`. -/
structure Grows (c : Capacity) (j : Nat) (s : Shared) (a : Aux) (t : Tree) (g : Ghost Nat)
    (n new : Option Nat) : Prop where
  inv : Inv c t g
  evolves : Evolves j s.tree a.ghost t g
  frame : ∀ m, n ≠ some m → new ≠ some m → t.node m = s.tree.node m
  count : new = none ∧ t.count = s.tree.count ∨
    new = some s.tree.count ∧ t.count = s.tree.count + 1
  held : ∀ m, n = some m → a.holder m = some j
  leads : ∀ p m, n = some p ∨ new = some p → Leads (t.node p) m →
    new = some m ∨ a.creator m = none ∨ a.creator m = some j

section Grow

variable {t : Tree} {g : Ghost Nat} {n new rooter : Option Nat} {m : Nat}

theorem begin_creator_of_ne (h : new ≠ some m) :
    (a.begin j g new rooter).creator m = a.creator m := if_neg h

theorem begin_creator_new (h : new = some m) : (a.begin j g new rooter).creator m = some j :=
  if_pos h

theorem begin_creator_eq (hm : (a.begin j g new rooter).creator m = some i) :
    new = some m ∧ i = j ∨ new ≠ some m ∧ a.creator m = some i := by
  by_cases hnew : new = some m
  · rw [begin_creator_new hnew, Option.some.injEq] at hm
    exact Or.inl ⟨hnew, hm.symm⟩
  · rw [begin_creator_of_ne hnew] at hm
    exact Or.inr ⟨hnew, hm⟩

theorem begin_creator_none (hm : (a.begin j g new rooter).creator m = none) :
    new ≠ some m ∧ a.creator m = none := by
  have hnew : new ≠ some m := fun he => by
    rw [begin_creator_new he] at hm
    exact absurd hm (by simp)
  rw [begin_creator_of_ne hnew] at hm
  exact ⟨hnew, hm⟩

theorem Grows.eq_count (h : Grows c j s a t g n new) (hm : new = some m) : m = s.tree.count := by
  rcases h.count with ⟨h1, _⟩ | ⟨h1, _⟩
  · rw [h1] at hm
    exact absurd hm (by simp)
  · rw [h1, Option.some.injEq] at hm
    exact hm.symm

theorem Grows.new_ne (h : Grows c j s a t g n new) (hm : m < s.tree.count) : new ≠ some m :=
  fun he => absurd (h.eq_count he) hm.ne

theorem Grows.lt_of_lt (h : Grows c j s a t g n new) (hm : m < t.count) (hne : new ≠ some m) :
    m < s.tree.count := by
  rcases h.count with ⟨_, h2⟩ | ⟨h1, h2⟩
  · rw [h2] at hm
    exact hm
  · have hmc : m ≠ s.tree.count := fun he => hne (by rw [h1, he])
    omega

theorem Coherent.grow (h : Coherent c s a) (hg : Grows c j s a t g n new) {level : Nat}
    {locked : Bool} (hlevel : ∀ m, new = some m → g.level m = level)
    (hroot : rooter = none → s.root = t.root) (hlocked : locked = true ↔ rooter ≠ none) :
    Coherent c { s with
        tree := t
        locked := locked
        level := Slots.store s.level s.tree.count level }
      (a.begin j g new rooter) := by
  have hle := hg.evolves.count_le
  refine ⟨hg.inv, h.held, ?_, ?_, ?_, ?_, ?_, ?_, lt_of_lt_of_le h.root_lt hle, ?_, ?_, hroot,
    hlocked⟩
  · intro m hm
    by_cases hnew : new = some m
    · have hlv := hlevel m hnew
      obtain rfl := hg.eq_count hnew
      exact (Slots.store_self _ _ _).trans hlv.symm
    · have hlt := hg.lt_of_lt hm hnew
      have hstay : Slots.store s.level s.tree.count level m = s.level m :=
        Slots.store_of_ne _ _ hlt.ne
      exact hstay.trans ((h.level m hlt).trans (hg.evolves.level_eq m hlt).symm)
  · intro m hm hc
    rcases begin_creator_none hc with ⟨hnew, hc⟩
    have hn : n ≠ some m := fun he => absurd ((hg.held m he).symm.trans hm) (by simp)
    exact (h.clean m hm hc).trans (hg.frame m hn hnew).symm
  · intro m hm hc
    rcases begin_creator_none hc with ⟨hnew, hc⟩
    have hlt := hg.lt_of_lt hm hnew
    exact (h.kind m hlt hc).trans (hg.evolves.isLeaf_eq m hlt).symm
  · intro m hm
    rcases h.outside m (hle.trans hm) with ⟨h1, h2⟩
    have hnew : new ≠ some m := fun he => by
      rcases hg.count with ⟨h3, _⟩ | ⟨_, h4⟩
      · rw [h3] at he
        exact absurd he (by simp)
      · have hmc := hg.eq_count he
        have hm' : t.count ≤ m := hm
        omega
    exact ⟨h1, (begin_creator_of_ne hnew).trans h2⟩
  · intro m i hc
    rcases begin_creator_eq hc with ⟨hnew, _⟩ | ⟨_, hc⟩
    · rw [hg.eq_count hnew]
      exact (h.outside _ le_rfl).1
    · exact h.unheld m i hc
  · intro p hp m i hl hc
    by_cases hown : n = some p ∨ new = some p
    · have hij : i = j := by
        rcases begin_creator_eq hc with ⟨_, hij⟩ | ⟨hnew, hc⟩
        · exact hij
        · rcases hg.leads p m hown hl with hm | hm | hm
          · exact absurd hm hnew
          · exact absurd (hm.symm.trans hc) (by simp)
          · exact Option.some.inj (hc.symm.trans hm)
      rw [hij]
      rcases hown with hn | hn
      · exact Or.inl (hg.held p hn)
      · exact Or.inr (begin_creator_new hn)
    · have hnp : new ≠ some p := fun he => hown (Or.inr he)
      have hlt := hg.lt_of_lt hp hnp
      have hnode := hg.frame p (fun he => hown (Or.inl he)) hnp
      have hl' : Leads (s.tree.node p) m := hnode ▸ hl
      have hm := Inv.leads_lt h.inv hlt hl'
      rcases begin_creator_eq hc with ⟨hnew, _⟩ | ⟨_, hc⟩
      · exact absurd hnew (hg.new_ne hm)
      · rcases h.hidden p hlt m i hl' hc with ho | ho
        · exact Or.inl ho
        · exact Or.inr ((begin_creator_of_ne hnp).trans ho)
  · exact (hg.evolves.low_eq s.root h.root_lt).trans h.root_low
  · exact (begin_creator_of_ne (hg.new_ne h.root_lt)).trans h.root_creator

theorem Coherent.disturbs_grow (h : Coherent c s a) (hg : Grows c j s a t g n new) {level : Nat}
    {locked : Bool}
    (hroot : ∀ i, i ≠ j → a.rooter = some i → rooter = some i ∧ t.root = s.tree.root) :
    Disturbs j s a { s with
        tree := t
        locked := locked
        level := Slots.store s.level s.tree.count level }
      (a.begin j g new rooter) := by
  have hother : ∀ i, i ≠ j → ∀ m, a.Owns i m → n ≠ some m ∧ new ≠ some m := by
    intro i hi m hm
    refine ⟨fun he => hi (h.owner_unique hm (Or.inl (hg.held m he))), ?_⟩
    exact hg.new_ne (h.owned_lt hm)
  refine ⟨⟨hg.evolves, fun _ _ _ hm => hm, Or.inr ⟨rfl, ?_⟩⟩, fun _ _ _ => Iff.rfl, ?_, ?_,
    fun _ _ _ _ => rfl, ?_, ?_⟩
  · intro m hm hne
    exact hg.frame m (fun he => hne (hg.held m he)) (hg.new_ne hm)
  · intro i hi m
    constructor
    · intro hm
      rcases begin_creator_eq hm with ⟨_, hij⟩ | ⟨_, hm⟩
      · exact absurd hij hi
      · exact hm
    · intro hm
      exact (begin_creator_of_ne (hother i hi m (Or.inr hm)).2).trans hm
  · intro m hm hc
    exact (begin_creator_of_ne (hg.new_ne hm)).trans hc
  · intro i hi m hm
    rcases hother i hi m hm with ⟨h1, h2⟩
    exact hg.frame m h1 h2
  · intro i hi hr
    rcases hroot i hi hr with ⟨h1, h2⟩
    exact ⟨h1, rfl, h2⟩

end Grow

/-- The trees before and behind an operation of thread `j` on node `n` that returns `up`. -/
inductive Changes (j : Nat) (t : Tree) (g : Ghost Nat) (t' : Tree) (g' : Ghost Nat) (n : Nat) :
    Option (Nat × Nat) → Prop
  | write : IsWrite t t' n → Changes j t g t' g' n none
  | split {s k : Nat} : IsSplit t t' n s → Pending t' g' j k t.count →
      g'.level t.count = g.level n → Changes j t g t' g' n (some (t.count, k))

section Begin

variable {t : Tree} {g : Ghost Nat} {up : Option (Nat × Nat)}

/-- The node of a writer leads to no node of another writer. -/
theorem Coherent.leads_creator (h : Coherent c s a) (hacq : Acquired s a j n) {m : Nat}
    (hl : Leads (s.tree.node n) m) : a.creator m = none ∨ a.creator m = some j := by
  cases hm : a.creator m with
  | none => exact Or.inl rfl
  | some i =>
      have hown := h.hidden n hacq.lt_count m i hl hm
      rw [h.owner_unique hown (Or.inl hacq.holder)]
      exact Or.inr rfl

theorem Changes.grows (hch : Changes j s.tree a.ghost t g n up) (h : Coherent c s a)
    (hacq : Acquired s a j n) (hinv : Inv c t g) (hev : Evolves j s.tree a.ghost t g)
    (hchildren : ∀ p m, p = n ∨ up.map Prod.fst = some p → some m ∈ (t.node p).children →
      some m ∈ (s.tree.node n).children ∨ a.creator m = none) :
    Grows c j s a t g (some n) (up.map Prod.fst) := by
  have hheld : ∀ m, some n = some m → a.holder m = some j := by
    intro m hm
    rw [← Option.some.inj hm]
    exact hacq.holder
  have hright : ∀ m, (s.tree.node n).rightSibling = some m →
      a.creator m = none ∨ a.creator m = some j :=
    fun m hm => h.leads_creator hacq (Or.inl hm)
  have hchild : ∀ p m, p = n ∨ up.map Prod.fst = some p → some m ∈ (t.node p).children →
      a.creator m = none ∨ a.creator m = some j := by
    intro p m hp hm
    rcases hchildren p m hp hm with hm | hm
    · exact h.leads_creator hacq (Or.inr hm)
    · exact Or.inl hm
  cases hch with
  | write hw =>
      refine ⟨hinv, hev, ?_, Or.inl ⟨rfl, hw.count⟩, hheld, ?_⟩
      · intro m hm _
        exact hw.frame m fun he => hm (congrArg some he.symm)
      · intro p m hp hl
        obtain rfl : n = p := by simpa using hp
        rcases hl with hl | hl
        · rw [hw.right] at hl
          exact Or.inr (hright m hl)
        · exact Or.inr (hchild n m (Or.inl rfl) hl)
  | split hs hpend hlv =>
      refine ⟨hinv, hev, ?_, Or.inr ⟨rfl, hs.count⟩, hheld, ?_⟩
      · intro m hm hnew
        exact hs.frame m (fun he => hm (congrArg some he.symm))
          fun he => hnew (congrArg some he.symm)
      · intro p m hp hl
        rcases hp with hp | hp
        · obtain rfl : n = p := by simpa using hp
          rcases hl with hl | hl
          · rw [hs.left_right] at hl
            exact Or.inl hl
          · exact Or.inr (hchild n m (Or.inl rfl) hl)
        · obtain rfl : s.tree.count = p := by simpa using hp
          rcases hl with hl | hl
          · rw [hs.new_right] at hl
            exact Or.inr (hright m hl)
          · exact Or.inr (hchild _ m (Or.inr rfl) hl)

theorem Changes.stepped (hch : Changes j s.tree a.ghost t g n up) (h : Coherent c s a) {pc : Pc}
    (ho : Owned a j pc) (hpc : pc.holds = some n) (hb : pc.builds = none)
    (hacq : Acquired s a j n) (hinv : Inv c t g) (hev : Evolves j s.tree a.ghost t g)
    (hchildren : ∀ p m, p = n ∨ up.map Prod.fst = some p → some m ∈ (t.node p).children →
      some m ∈ (s.tree.node n).children ∨ a.creator m = none) {rest : List (Nat × Write)}
    (hperf : Performs s.memory rest n (up.map Prod.fst) t) :
    Stepped c j s a (s.begin n t) (.writer (.writing n rest up)) := by
  have hg := hch.grows h hacq hinv hev hchildren
  have hroot : t.root = s.tree.root := by
    cases hch with
    | write hw => exact hw.root
    | split hs _ _ => exact hs.root
  have hlevel : ∀ m, up.map Prod.fst = some m → g.level m = s.level n := by
    intro m hm
    rw [h.level n hacq.lt_count]
    cases hch with
    | write hw => exact absurd hm (by simp)
    | split hs hpend hlv =>
        obtain rfl : s.tree.count = m := by simpa using hm
        exact hlv
  refine ⟨a.begin j g (up.map Prod.fst) a.rooter, ?_, ?_, ⟨?_, ?_⟩, ?_⟩
  · exact h.grow hg hlevel (fun hr => (h.root_eq hr).trans hroot.symm) h.locked
  · exact h.disturbs_grow hg fun _ _ hr => ⟨hr, hroot⟩
  · intro m hm
    have hh := ho.holds m hm
    rw [hpc] at hh
    exact hh
  · intro m hm
    rcases begin_creator_eq hm with ⟨hm, _⟩ | ⟨_, hm⟩
    · exact hm
    · have hh := ho.builds m hm
      rw [hb] at hh
      exact absurd hh (by simp)
  · refine ⟨lt_of_lt_of_le hacq.lt_count hev.count_le, hacq.holder, hperf, ?_⟩
    intro x k hup
    subst hup
    refine ⟨begin_creator_new rfl, ?_⟩
    cases hch with
    | split hs hpend hlv => exact hpend

theorem Coherent.agrees (h : Coherent c s a) (hacq : Acquired s a j n) :
    Agrees s.tree s.memory n := by
  rcases h.outside _ le_rfl with ⟨h1, h2⟩
  exact ⟨hacq.lt_count, hacq.memory, h.clean _ h1 h2⟩

/-- The nodes of an operation on a leaf have no children. -/
theorem Changes.leaf_children (hch : Changes j s.tree a.ghost t g n up)
    (hl : (s.tree.node n).isLeaf = true) {p m : Nat} (hp : p = n ∨ up.map Prod.fst = some p) :
    some m ∉ (t.node p).children := by
  have hleaf : (t.node p).isLeaf = true := by
    cases hch with
    | write hw =>
        obtain rfl : p = n := by simpa using hp
        rw [hw.isLeaf, hl]
    | split hs hpend hlv =>
        rcases hp with rfl | hp
        · rw [hs.left_isLeaf, hl]
        · obtain rfl : s.tree.count = p := by simpa using hp
          rw [hs.new_isLeaf, hl]
  simp [Node.children, hleaf]

/-- `insert_into_leaf` begins. -/
theorem stepped_insert (h : Coherent c s a) {pc : Pc} (ho : Owned a j pc)
    (hpc : pc.holds = some n) (hb : pc.builds = none) (hacq : Acquired s a j n)
    (hl : (s.tree.node n).isLeaf = true) (hr : InRange s.tree n k) (v : Value) :
    Stepped c j s a (s.begin n (s.tree.insertIntoLeaf c n k v).1) (.writer
      (.writing n (insertIntoLeafWrites c s.memory n s.tree.count k v)
        (s.tree.insertIntoLeaf c n k v).2)) := by
  rcases hr with ⟨hlow, hhigh⟩
  have hn := hacq.lt_count
  rw [h.inv.lowKey_eq hn] at hlow
  rcases insertIntoLeaf_spec h.inv j hn hl hlow hhigh v with ⟨g, hinv, hev, _, hposts⟩
  have hch : Changes j s.tree a.ghost (s.tree.insertIntoLeaf c n k v).1 g n
      (s.tree.insertIntoLeaf c n k v).2 := by
    rcases insertIntoLeaf_cases c s.tree n k v with ⟨_, he⟩ | ⟨_, _, he⟩ | ⟨_, _, he⟩
    · rw [he]
      exact .write ⟨rfl, rfl, rfl, rfl, rfl, fun _ _ => rfl⟩
    · rw [he]
      exact .write (isWrite_setNode rfl rfl rfl)
    · rw [he] at hposts ⊢
      rcases hposts with ⟨hpend, hlevel⟩
      have hzero := (h.inv.node n hn).leaf_iff.mp hl
      exact .split (splitLeafNode_isSplit k v hn hl) hpend (hlevel.trans hzero.symm)
  exact hch.stepped h ho hpc hb hacq hinv hev
    (fun p m hp hm => absurd hm (hch.leaf_children hl hp)) ((h.agrees hacq).insertIntoLeaf k v)

/-- The leaf write of `update` begins. -/
theorem stepped_update (h : Coherent c s a) {pc : Pc} (ho : Owned a j pc)
    (hpc : pc.holds = some n) (hb : pc.builds = none) (hacq : Acquired s a j n)
    (hl : (s.tree.node n).isLeaf = true) (hr : InRange s.tree n k) (v : Value) :
    Stepped c j s a (s.begin n (s.tree.setNode n ((s.tree.node n).updateValue c k v)))
      (.writer (.writing n (updateWrites c s.memory n k v) none)) := by
  rcases hr with ⟨hlow, hhigh⟩
  have hn := hacq.lt_count
  rw [h.inv.lowKey_eq hn] at hlow
  rcases updateValue_spec h.inv j hn hl hlow hhigh v with ⟨hinv, hev, _⟩
  have hch : Changes j s.tree a.ghost (s.tree.setNode n ((s.tree.node n).updateValue c k v))
      a.ghost n none := .write (isWrite_updateValue c s.tree n k v)
  exact hch.stepped h ho hpc hb hacq hinv hev
    (fun p m hp hm => absurd hm (hch.leaf_children hl hp)) ((h.agrees hacq).updateValue k v)

/-- `insert_into_inner` begins. -/
theorem stepped_post (h : Coherent c s a) {pc : Pc} (ho : Owned a j pc)
    (hpc : pc.holds = some n) (hb : pc.builds = none) (hacq : Acquired s a j n)
    (hcarry : Carries s a j x k) (hl : (s.tree.node n).isLeaf = false)
    (hlevel : s.level x < s.level n) :
    ∃ t up, s.tree.insertIntoInner c n k x = some (t, up) ∧ Stepped c j s a (s.begin n t)
      (.writer (.writing n (insertIntoInnerWrites c s.memory n s.tree.count k x) up)) := by
  have hn := hacq.lt_count
  have hlv : a.ghost.level x < a.ghost.level n := by
    rw [← h.level x hcarry.pending.lt_count, ← h.level n hn]
    exact hlevel
  rcases insertIntoInner_cases h.inv hn hl hcarry.pending hlv with
    ⟨t, he, hins, hinv, hev, _⟩ | ⟨t, up, he, hdiv, hinv, hev, _, hpend⟩
  · refine ⟨t, none, he, ?_⟩
    have hch : Changes j s.tree a.ghost t
        { a.ghost with owner := Slots.store a.ghost.owner k (.stored n) } n none :=
      .write hins.write
    refine hch.stepped h ho hpc hb hacq hinv hev ?_ ((h.agrees hacq).insertIntoInner he)
    intro p m hp hm
    obtain rfl : p = n := by simpa using hp
    rcases hins.children hl hm with rfl | hm
    · exact Or.inr hcarry.creator
    · exact Or.inl hm
  · refine ⟨t, some (s.tree.count, up), he, ?_⟩
    have hch := Changes.split (g := a.ghost) hdiv.split hpend
      (by simp [Ghost.innerSplit, Ghost.split])
    refine hch.stepped h ho hpc hb hacq hinv hev ?_ ((h.agrees hacq).insertIntoInner he)
    intro p m hp hm
    have hmem : some m ∈ (t.node n).children ∨ some m ∈ (t.node s.tree.count).children := by
      rcases hp with rfl | hp
      · exact Or.inl hm
      · obtain rfl : s.tree.count = p := by simpa using hp
        exact Or.inr hm
    rcases (hdiv.children hl).mp hmem with rfl | hm
    · exact Or.inr hcarry.creator
    · exact Or.inl hm

end Begin

/-! ## A new root -/

/-- `create_new_root` begins. -/
theorem stepped_beginRoot (h : Coherent c s a) {pc : Pc} (ho : Owned a j pc)
    (hpc : pc.holds = none) (hb : pc.builds = none) (hcarry : Carries s a j x k)
    (hfree : s.locked = false) :
    Stepped c j s a (s.beginRoot x k) (.writer (.rooting s.tree.count
      (createNewRootWrites s.memory s.tree.count s.root x k))) := by
  have hnone : a.rooter = none := by
    by_contra hne
    rw [h.locked.mpr hne] at hfree
    exact absurd hfree (by decide)
  have hroot := h.root_eq hnone
  have hnew := createNewRoot_isNewRoot s.tree s.root x k
  have hspec := createNewRoot_spec h.inv hcarry.pending
  rw [← hroot] at hspec
  rcases hspec with ⟨g, hinv, hev, _, hlv⟩
  have hg : Grows c j s a (s.tree.createNewRoot s.root x k) g none (some s.tree.count) := by
    refine ⟨hinv, hev, ?_, Or.inr ⟨rfl, hnew.count⟩, fun m hm => absurd hm (by simp), ?_⟩
    · intro m _ hm
      exact hnew.frame m fun he => hm (congrArg some he.symm)
    · intro p m hp hl
      obtain rfl : s.tree.count = p := by simpa using hp
      refine Or.inr (Or.inl ?_)
      rcases hl with hl | hl
      · rw [hnew.rightSibling] at hl
        exact absurd hl (by simp)
      · rw [Node.children_of_inner hnew.isLeaf, hnew.first, hnew.seps] at hl
        simp only [List.map_cons, List.map_nil, List.mem_cons, Option.some.injEq,
          List.not_mem_nil, or_false] at hl
        rcases hl with rfl | rfl
        · exact h.root_creator
        · exact hcarry.creator
  refine ⟨a.begin j g (some s.tree.count) (some j), ?_, ?_, ⟨?_, ?_⟩, ?_⟩
  · refine h.grow hg (fun m hm => ?_) (fun hr => absurd hr (by simp)) (by simp)
    obtain rfl : s.tree.count = m := by simpa using hm
    rw [hlv, h.level s.root h.root_lt]
  · refine h.disturbs_grow hg fun i _ hr => ?_
    rw [hnone] at hr
    exact absurd hr (by simp)
  · intro m hm
    have hh := ho.holds m hm
    rw [hpc] at hh
    exact absurd hh (by simp)
  · intro m hm
    rcases begin_creator_eq hm with ⟨hm, _⟩ | ⟨_, hm⟩
    · exact hm
    · have hh := ho.builds m hm
      rw [hb] at hh
      exact absurd hh (by simp)
  · rcases h.outside _ le_rfl with ⟨h1, h2⟩
    refine ⟨rfl, hnew.root, begin_creator_new rfl, ?_, ?_⟩
    · exact fun w hw => (mem_writesTo hw).1
    · exact runWrites_createNewRootWrites (h.clean _ h1 h2) s.root x k

/-- The new root is complete and becomes the root. -/
theorem stepped_publish (h : Coherent c s a) {r : Nat} (ho : Owned a j (.writer (.rooting r [])))
    (hr : Rooting s a j r []) : Stepped c j s a { s with root := r } (.writer .rooted) := by
  have hother : ∀ m, a.creator m = some j → m = r := by
    intro m hm
    have hh : some r = some m := ho.builds m hm
    exact (Option.some.inj hh).symm
  have hnode : s.memory r = s.tree.node r := hr.node
  refine ⟨{ a with creator := a.reveal j }, ?_, ?_, ⟨?_, ?_⟩, ?_⟩
  · refine ⟨h.inv, h.held, h.level, ?_, ?_, ?_, ?_, ?_, h.owned_lt (Or.inr hr.creator), ?_, ?_, ?_,
      h.locked⟩
    · intro m hm hc
      rcases creator_of_reveal hc with hc | hc
      · rw [hother m hc]
        exact hnode
      · exact h.clean m hm hc
    · intro m hm hc
      rcases creator_of_reveal hc with hc | hc
      · rw [hother m hc]
        exact congrArg Node.isLeaf hnode
      · exact h.kind m hm hc
    · intro m hm
      rcases h.outside m hm with ⟨h1, h2⟩
      exact ⟨h1, reveal_of_none h2⟩
    · intro m i hc
      exact h.unheld m i (reveal_eq_some.mp hc).2
    · intro p hp m i hl hc
      rcases reveal_eq_some.mp hc with ⟨hij, hc⟩
      rcases h.hidden p hp m i hl hc with ho | ho
      · exact Or.inl ho
      · exact Or.inr (reveal_eq_some.mpr ⟨hij, ho⟩)
    · show a.ghost.low r = 0
      rw [← hr.root]
      exact h.inv.low_root
    · exact if_pos hr.creator
    · intro hnone
      exact absurd (hr.rooter.symm.trans hnone) (by simp)
  · refine ⟨Interferes.refl j _ _, fun _ _ _ => Iff.rfl, ?_, fun m _ hc => reveal_of_none hc,
      fun _ _ _ _ => rfl, fun _ _ _ _ => rfl, ?_⟩
    · intro i hi m
      exact reveal_eq_some.trans ⟨fun hc => hc.2, fun hc => ⟨hi, hc⟩⟩
    · intro i hi hri
      exact absurd (Option.some.inj (hri.symm.trans hr.rooter)) hi
  · intro m hm
    exact absurd (ho.holds m hm) (by simp [Pc.holds])
  · intro m hm
    exact absurd rfl (reveal_eq_some.mp hm).1
  · exact ⟨hr.rooter, hr.root.symm⟩

/-- The tree is unlocked. -/
theorem stepped_unlockTree (h : Coherent c s a) (ho : Owned a j (.writer .rooted))
    (hr : a.rooter = some j) (hroot : s.root = s.tree.root) :
    Stepped c j s a { s with locked := false } .idle := by
  refine ⟨{ a with rooter := none }, ?_, ?_, ⟨?_, ?_⟩, trivial⟩
  · exact ⟨h.inv, h.held, h.level, h.clean, h.kind, h.outside, h.unheld, h.hidden, h.root_lt,
      h.root_low, h.root_creator, fun _ => hroot, by simp⟩
  · refine ⟨Interferes.refl j _ _, fun _ _ _ => Iff.rfl, fun _ _ _ => Iff.rfl, fun _ _ hc => hc,
      fun _ _ _ _ => rfl, fun _ _ _ _ => rfl, ?_⟩
    intro i hi hri
    exact absurd (Option.some.inj (hri.symm.trans hr)) hi
  · intro m hm
    exact absurd (ho.holds m hm) (by simp [Pc.holds])
  · intro m hm
    exact absurd (ho.builds m hm) (by simp [Pc.builds])

/-! ## All steps of a writer -/

/-- A thread without nodes acquires one. -/
theorem stepped_lock (h : Coherent c s a) {pc : Pc} {w : Writer} {l : VersionedTree}
    (ho : Owned a j pc) (hpc : pc.holds = none) (hb : pc.builds = none)
    (hw : Pc.holds (.writer w) = some n) (hn : n < s.tree.count) (hknown : a.creator n = none)
    (hlock : s.lock n = some l)
    (hknows : Acquired { s with toVersionedTree := s.unlock n } (a.acquire j n) j n →
      Knows { s with toVersionedTree := s.unlock n } (a.acquire j n) j w) :
    Stepped c j s a { s with toVersionedTree := l } (.writer w) := by
  rcases VersionedTree.lock_eq hlock with ⟨hfree, rfl⟩
  exact ⟨a.acquire j n, h.acquire hn hknown hfree j, h.disturbs_acquire hfree j,
    ho.acquire hpc hb hw, hknows (h.acquired hn hknown hfree j)⟩

/-- A node is released as it was acquired. -/
theorem stepped_release (h : Coherent c s a) {pc pc' : Pc} (ho : Owned a j pc)
    (hpc : pc.holds = some n) (hb : pc.builds = none) (hacq : Acquired s a j n)
    (hknows : KnowsPc { s with toVersionedTree := s.unlock n } (a.release j n) j pc') :
    Stepped c j s a { s with toVersionedTree := s.unlock n } pc' := by
  refine ⟨a.release j n, h.release hacq.holder ?_, disturbs_release hacq.holder, ho.release hpc,
    hknows⟩
  intro m hm
  rcases hm with hm | hm
  · have hh := ho.holds m hm
    rw [hpc, Option.some.injEq] at hh
    rw [← hh]
    exact hacq.memory
  · have hh := ho.builds m hm
    rw [hb] at hh
    exact absurd hh (by simp)

/-- A node is released behind an operation. -/
theorem stepped_finish (h : Coherent c s a) {up : Option (Nat × Nat)}
    (ho : Owned a j (.writer (.writing n [] up))) (hw : Writing s a j n [] up) :
    Stepped c j s a { s with toVersionedTree := s.unlock n } (resume up) := by
  refine ⟨a.release j n, h.release hw.holder ?_, disturbs_release hw.holder, ho.release rfl, ?_⟩
  · intro m hm
    rcases hm with hm | hm
    · have hh : some n = some m := ho.holds m hm
      rw [← Option.some.inj hh]
      exact hw.performs.node
    · exact hw.performs.new m (ho.builds m hm)
  · cases up with
    | none => trivial
    | some p =>
        rcases p with ⟨x, k⟩
        rcases hw.posts x k rfl with ⟨hc, hp⟩
        exact ⟨hp, if_pos hc⟩

theorem stepped_write (h : Coherent c s a) {w : Nat × Write} {rest : List (Nat × Write)}
    {up : Option (Nat × Nat)} (ho : Owned a j (.writer (.writing n (w :: rest) up)))
    (hw : Writing s a j n (w :: rest) up) :
    Stepped c j s a { s with memory := runWrite s.memory w } (.writer (.writing n rest up)) := by
  have htarget := hw.performs.targets w (List.mem_cons_self ..)
  have hown : a.Owns j w.1 := by
    rcases htarget with ⟨h1, _⟩ | h1
    · rw [h1]
      exact Or.inl hw.holder
    · rcases Option.map_eq_some_iff.mp h1 with ⟨⟨x, k⟩, hup, hx⟩
      rw [← hx]
      exact Or.inr (hw.posts x k hup).1
  have hkind : a.holder w.1 = some j → w.2.creates = false := by
    intro hhold
    rcases htarget with ⟨_, h2⟩ | h1
    · exact h2
    · rcases Option.map_eq_some_iff.mp h1 with ⟨⟨x, k⟩, hup, hx⟩
      have hc := (hw.posts x k hup).1
      have hx' : x = w.1 := hx
      rw [hx'] at hc
      exact absurd (hhold.symm.trans (h.unheld _ _ hc)) (by simp)
  refine ⟨a, h.write hown hkind, h.disturbs_write hown, ⟨ho.holds, ho.builds⟩, ?_⟩
  refine ⟨hw.lt_count, hw.holder, ⟨?_, hw.performs.node, hw.performs.new⟩, hw.posts⟩
  exact fun w' hw' => hw.performs.targets w' (List.mem_cons_of_mem _ hw')

theorem stepped_writeRoot (h : Coherent c s a) {r : Nat} {w : Nat × Write}
    {rest : List (Nat × Write)} (ho : Owned a j (.writer (.rooting r (w :: rest))))
    (hr : Rooting s a j r (w :: rest)) :
    Stepped c j s a { s with memory := runWrite s.memory w } (.writer (.rooting r rest)) := by
  have htarget := hr.targets w (List.mem_cons_self ..)
  have hown : a.Owns j w.1 := by
    rw [htarget]
    exact Or.inr hr.creator
  have hkind : a.holder w.1 = some j → w.2.creates = false := by
    intro hhold
    rw [htarget, h.unheld r j hr.creator] at hhold
    exact absurd hhold (by simp)
  refine ⟨a, h.write hown hkind, h.disturbs_write hown, ⟨ho.holds, ho.builds⟩, ?_⟩
  exact ⟨hr.rooter, hr.root, hr.creator,
    fun w' hw' => hr.targets w' (List.mem_cons_of_mem _ hw'), hr.node⟩

theorem Writer.next_spec (h : Coherent c s a) {w : Writer} (ho : Owned a j (.writer w))
    (hk : Knows s a j w) {act : Act} {pc : Pc} (hvalid : Valid s (.writer w) act)
    (hknown : ∀ n, act = .acquire n → Pc.builds (.writer w) = none → a.creator n = none)
    (hs : w.next c s act = some (s', pc)) : Stepped c j s a s' pc := by
  cases w with
  | acquired n =>
      cases act with
      | insert k v =>
          simp only [Writer.next, Option.some.injEq, Prod.mk.injEq] at hs
          rcases hs with ⟨rfl, rfl⟩
          exact stepped_insert h ho rfl rfl hk hvalid.1 hvalid.2 v
      | update k v =>
          simp only [Writer.next, Option.some.injEq, Prod.mk.injEq] at hs
          rcases hs with ⟨rfl, rfl⟩
          exact stepped_update h ho rfl rfl hk hvalid.1 hvalid.2 v
      | release =>
          simp only [Writer.next, Option.some.injEq, Prod.mk.injEq] at hs
          rcases hs with ⟨rfl, rfl⟩
          exact stepped_release h ho rfl rfl hk trivial
      | _ => simp [Writer.next] at hs
  | writing n rest up =>
      cases act with
      | go =>
          cases rest with
          | nil =>
              simp only [Writer.next, Option.some.injEq, Prod.mk.injEq] at hs
              rcases hs with ⟨rfl, rfl⟩
              exact stepped_finish h ho hk
          | cons w rest =>
              simp only [Writer.next, Option.some.injEq, Prod.mk.injEq] at hs
              rcases hs with ⟨rfl, rfl⟩
              exact stepped_write h ho hk
      | _ => simp [Writer.next] at hs
  | carrying x k =>
      cases act with
      | acquire n =>
          simp only [Writer.next, Option.map_eq_some_iff, Prod.mk.injEq] at hs
          rcases hs with ⟨l, hl, rfl, rfl⟩
          exact stepped_lock h ho rfl rfl rfl hvalid (hknown n rfl rfl) hl
            fun hacq => ⟨hacq, hk.pending, hk.creator⟩
      | lockTree =>
          simp only [Writer.next] at hs
          split at hs
          · simp at hs
          next hl =>
            simp only [Option.some.injEq, Prod.mk.injEq] at hs
            rcases hs with ⟨rfl, rfl⟩
            exact stepped_beginRoot h ho rfl rfl hk (by simpa using hl)
      | _ => simp [Writer.next] at hs
  | parent n x k =>
      rcases hk with ⟨hacq, hcarry⟩
      cases act with
      | release =>
          simp only [Writer.next, Option.some.injEq, Prod.mk.injEq] at hs
          rcases hs with ⟨rfl, rfl⟩
          exact stepped_release h ho rfl rfl hacq ⟨hcarry.pending, reveal_of_none hcarry.creator⟩
      | go =>
          rcases stepped_post h ho rfl rfl hacq hcarry hvalid.1 hvalid.2.2 with
            ⟨t, up, he, hstep⟩
          simp only [Writer.next, he, Option.map_some, Option.some.injEq, Prod.mk.injEq] at hs
          rcases hs with ⟨rfl, rfl⟩
          exact hstep
      | _ => simp [Writer.next] at hs
  | rooting r rest =>
      cases act with
      | go =>
          cases rest with
          | nil =>
              simp only [Writer.next, Option.some.injEq, Prod.mk.injEq] at hs
              rcases hs with ⟨rfl, rfl⟩
              exact stepped_publish h ho hk
          | cons w rest =>
              simp only [Writer.next, Option.some.injEq, Prod.mk.injEq] at hs
              rcases hs with ⟨rfl, rfl⟩
              exact stepped_writeRoot h ho hk
      | _ => simp [Writer.next] at hs
  | rooted =>
      cases act with
      | go =>
          simp only [Writer.next, Option.some.injEq, Prod.mk.injEq] at hs
          rcases hs with ⟨rfl, rfl⟩
          exact stepped_unlockTree h ho hk.1 hk.2
      | _ => simp [Writer.next] at hs

end BLinkTree.Optimistic.Fields

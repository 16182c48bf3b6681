import BLinkTree.Calls
import BLinkTree.Lib.VersionLock

/-! # Trees with optimistic latches

The node versions of the OLFIT builds, `optimistic_lock.h`. Every version starts as
`0b100`. `lock()` is the compare-and-exchange that ends its loop, `read_valid()` the load
that ends its loop.
-/

namespace BLinkTree

open VersionLock

/-- A tree and the version of every node. -/
structure VersionedTree where
  tree : Tree
  version : Nat → Nat

namespace VersionedTree

def empty (memory : Nat → Memory) : VersionedTree := ⟨Tree.empty memory, fun _ => 4⟩

/-- `OptimisticLock::read_valid`. -/
def readValid (s : VersionedTree) (n : Nat) : Option Nat :=
  if isLocked (s.version n) then none else some (s.version n)

/-- `OptimisticLock::lock`. -/
def lock (s : VersionedTree) (n : Nat) : Option VersionedTree :=
  if isLocked (s.version n) then none
  else some { s with version := Slots.store s.version n (s.version n + 2) }

/-- `OptimisticLock::unlock`. -/
def unlock (s : VersionedTree) (n : Nat) : VersionedTree :=
  { s with version := Slots.store s.version n (s.version n + 2) }

theorem readValid_eq {s : VersionedTree} {n v : Nat} (h : s.readValid n = some v) :
    isLocked (s.version n) = false ∧ v = s.version n := by
  unfold readValid at h
  split at h
  · simp at h
  next hl =>
    have hv : s.version n = v := by simpa using h
    exact ⟨by simpa using hl, hv.symm⟩

theorem lock_eq {s s' : VersionedTree} {n : Nat} (h : s.lock n = some s') :
    isLocked (s.version n) = false ∧ s' = s.unlock n := by
  unfold lock at h
  split at h
  · simp at h
  next hl =>
    rw [Option.some.injEq] at h
    exact ⟨by simpa using hl, h.symm⟩

end VersionedTree

/-! ## What the others see of a step -/

/-- The auxiliary value of the proofs, with the holder of every latch. -/
structure Latches (ι : Type) where
  ghost : Ghost ι
  holder : Nat → Option ι

variable {ι : Type} {s s' : VersionedTree} {l l' : Latches ι} {i j : ι} {n v : Nat}

/-- Thread `i` reads, moves one version, or writes nodes it holds. -/
structure Interferes (i : ι) (s : VersionedTree) (l : Latches ι) (s' : VersionedTree)
    (l' : Latches ι) : Prop where
  evolves : Evolves i s.tree l.ghost s'.tree l'.ghost
  holder : ∀ j, j ≠ i → ∀ n, l.holder n = some j → l'.holder n = some j
  change : s'.tree = s.tree ∧
      (s'.version = s.version ∨ ∃ m, s'.version = Slots.store s.version m (s.version m + 2)) ∨
    s'.version = s.version ∧
      ∀ n < s.tree.count, l.holder n ≠ some i → s'.tree.node n = s.tree.node n

theorem Interferes.refl (i : ι) (s : VersionedTree) (l : Latches ι) : Interferes i s l s l :=
  ⟨Evolves.refl i s.tree l.ghost, fun _ _ _ h => h, Or.inl ⟨rfl, Or.inl rfl⟩⟩

theorem Interferes.acquire (i : ι) (s : VersionedTree) (l : Latches ι) {n : Nat}
    (hn : l.holder n = none) :
    Interferes i s l (s.unlock n) { l with holder := Slots.store l.holder n (some i) } := by
  refine ⟨Evolves.refl i s.tree l.ghost, ?_, Or.inl ⟨rfl, Or.inr ⟨n, rfl⟩⟩⟩
  intro j _ m hm
  have hmn : m ≠ n := fun he => by simp [he, hn] at hm
  exact (Slots.store_of_ne _ _ hmn).trans hm

theorem Interferes.release {s : VersionedTree} {l : Latches ι} {n : Nat}
    (hn : l.holder n = some i) :
    Interferes i s l (s.unlock n) { l with holder := Slots.store l.holder n none } := by
  refine ⟨Evolves.refl i s.tree l.ghost, ?_, Or.inl ⟨rfl, Or.inr ⟨n, rfl⟩⟩⟩
  intro j hj m hm
  have hmn : m ≠ n := by
    intro he
    rw [he, hn, Option.some.injEq] at hm
    exact hj hm.symm
  exact (Slots.store_of_ne _ _ hmn).trans hm

/-- What a reader remembers about a node survives every step of the others. -/
theorem Interferes.snapshot {P : Node → Prop} (h : Interferes i s l s' l')
    (hheld : Held s.version l.holder) (hn : n < s.tree.count)
    (hs : Snapshot s.version n v (P (s.tree.node n))) :
    Snapshot s'.version n v (P (s'.tree.node n)) := by
  rcases h.change with ⟨ht, hv | ⟨m, hv⟩⟩ | ⟨hv, hframe⟩
  · rw [ht, hv]
    exact hs
  · rw [ht, hv]
    exact hs.move m
  · rw [hv]
    refine hs.mono fun he hP => ?_
    have hnot : l.holder n ≠ some i := by
      intro hm
      have hlocked : isLocked (s.version n) = true := (hheld n).mpr (by simp [hm])
      rw [he, hs.free] at hlocked
      exact absurd hlocked (by decide)
    rw [hframe n hn hnot]
    exact hP

/-- Nobody else writes a node that is held. -/
theorem Interferes.held_node (h : Interferes i s l s' l') (hj : j ≠ i)
    (hhold : l.holder n = some j) (hn : n < s.tree.count) :
    s'.tree.node n = s.tree.node n := by
  rcases h.change with ⟨ht, _⟩ | ⟨_, hframe⟩
  · rw [ht]
  · apply hframe n hn
    intro hi
    rw [hhold, Option.some.injEq] at hi
    exact hj hi

/-- What a step of thread `i` with the leaf section `write` leaves to the others; `below` says
that a key stays below the high key of a leaf unless the section cuts it off. -/
structure Moves (c : Capacity) (i : ι) (s : VersionedTree) (l : Latches ι)
    (write : Option (Op × Nat)) (s' : VersionedTree) (l' : Latches ι) : Prop where
  held : Held s'.version l'.holder
  interferes : Interferes i s l s' l'
  below : ∀ m q, m < s.tree.count → (s.tree.node m).isLeaf = true →
    q.key < (s.tree.node m).highKey → Spares c s.tree write (some (q, m)) →
    q.key < (s'.tree.node m).highKey

theorem moves_of_read {c : Capacity} (i : ι) (write : Option (Op × Nat))
    (h : Held s.version l.holder) : Moves c i s l write s l :=
  ⟨h, Interferes.refl i s l, fun _ _ _ _ hq _ => hq⟩

theorem moves_of_lock {c : Capacity} (i : ι) (write : Option (Op × Nat))
    (h : Held s.version l.holder) (hlock : s.lock n = some s') :
    Moves c i s l write s' { l with holder := Slots.store l.holder n (some i) } ∧
      s'.tree = s.tree := by
  rcases VersionedTree.lock_eq hlock with ⟨hfree, rfl⟩
  have hnone : l.holder n = none := by
    by_contra hne
    rw [(h n).mpr hne] at hfree
    exact absurd hfree (by decide)
  exact ⟨⟨h.acquire i hfree, Interferes.acquire i s l hnone, fun _ _ _ _ hq _ => hq⟩, rfl⟩

theorem moves_of_unlock {c : Capacity} (write : Option (Op × Nat))
    (h : Held s.version l.holder) (hn : l.holder n = some i) :
    Moves c i s l write (s.unlock n) { l with holder := Slots.store l.holder n none } :=
  ⟨h.release hn, Interferes.release hn, fun _ _ _ _ hq _ => hq⟩

/-- A write under the latch of node `n`. -/
theorem moves_of_write {c : Capacity} {t : Tree} {g : Ghost ι} {write : Option (Op × Nat)}
    (h : Held s.version l.holder) (he : Evolves i s.tree l.ghost t g) (hn : l.holder n = some i)
    (hframe : ∀ m < s.tree.count, m ≠ n → t.node m = s.tree.node m)
    (hbelow : ∀ m q, m < s.tree.count → (s.tree.node m).isLeaf = true →
      q.key < (s.tree.node m).highKey → Spares c s.tree write (some (q, m)) →
      q.key < (t.node m).highKey) :
    Moves c i s l write { s with tree := t } { l with ghost := g } := by
  have hchange : ∀ m < s.tree.count, l.holder m ≠ some i → t.node m = s.tree.node m := by
    intro m hm hne
    apply hframe m hm
    intro hmn
    rw [hmn] at hne
    exact hne hn
  exact ⟨h, ⟨he, fun _ _ _ hm => hm, Or.inr ⟨rfl, hchange⟩⟩, hbelow⟩

theorem held_empty : Held (fun _ => 4) fun _ => (none : Option ι) := by
  intro n
  simp [isLocked]

end BLinkTree
